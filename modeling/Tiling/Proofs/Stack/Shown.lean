import Mathlib.Data.List.Nodup
import Tiling.Proofs.Stack.Beside
/-!
# Orders that show a list

A longer order shows a list if its elements that are in the list come in the order of the list.
Moving an element beside another one in both, and leaving elements out of the list, keeps that.
-/

namespace Tiling

variable {α : Type} [DecidableEq α]

/-- Restricted to the elements of the list, the order is the list. -/
def Shows (order list : List α) : Prop := (order.filter fun x => x ∈ list) = list

instance (order list : List α) : Decidable (Shows order list) :=
  inferInstanceAs (Decidable (_ = _))

theorem filter_mem_of_sublist {list fewer : List α} (hnodup : list.Nodup)
    (hsub : fewer.Sublist list) : (list.filter fun x => x ∈ fewer) = fewer := by
  induction hsub with
  | slnil => rfl
  | @cons fewer l a hsub ih =>
    obtain ⟨ha, hnodup⟩ := List.nodup_cons.1 hnodup
    rw [List.filter_cons_of_neg (by simpa using fun hmem => ha (hsub.subset hmem)), ih hnodup]
  | @cons_cons fewer l a hsub ih =>
    obtain ⟨ha, hnodup⟩ := List.nodup_cons.1 hnodup
    rw [List.filter_cons_of_pos (by simp)]
    have hrest : (l.filter fun x => x ∈ a :: fewer) = l.filter fun x => x ∈ fewer :=
      List.filter_congr fun x hx => by
        have hne : x ≠ a := fun heq => ha (heq ▸ hx)
        simp [hne]
    rw [hrest, ih hnodup]

/-- What is seen of some elements is seen in what is seen of more of them. -/
theorem filter_filter_mem {order list fewer : List α} (hsub : ∀ x ∈ fewer, x ∈ list) :
    ((order.filter fun x => x ∈ list).filter fun x => x ∈ fewer) =
      order.filter fun x => x ∈ fewer := by
  rw [List.filter_filter]
  refine List.filter_congr fun x _ => ?_
  by_cases hx : x ∈ fewer
  · simp [hx, hsub x hx]
  · simp [hx]

theorem mem_of_filter_mem {order order' list : List α}
    (hsame : (order'.filter fun x => x ∈ list) = order.filter fun x => x ∈ list) {a : α}
    (ha : a ∈ list) (hmem : a ∈ order) : a ∈ order' := by
  have hfilter : a ∈ order.filter fun x => x ∈ list := List.mem_filter.2 ⟨hmem, by simpa using ha⟩
  rw [← hsame] at hfilter
  exact List.mem_of_mem_filter hfilter

theorem filterMap_erase {β : Type} [DecidableEq β] {f : α → Option β} {l : List α} {a : α} {b : β}
    (ha : f a = some b) (hinj : ∀ x ∈ l, f x = some b → x = a) (hnodup : l.Nodup) :
    (l.erase a).filterMap f = (l.filterMap f).erase b := by
  induction l with
  | nil => rfl
  | cons x l ih =>
    obtain ⟨hx, hnodup⟩ := List.nodup_cons.1 hnodup
    by_cases hxa : x = a
    · subst hxa
      rw [List.erase_cons_head, List.filterMap_cons_some ha, List.erase_cons_head]
    · rw [List.erase_cons_tail (by simpa using hxa), List.filterMap_cons, List.filterMap_cons,
        ih (fun y hy => hinj y (List.mem_cons_of_mem x hy)) hnodup]
      cases hfx : f x with
      | none => rfl
      | some y =>
        have hyb : y ≠ b := fun heq => hxa (hinj x List.mem_cons_self (heq ▸ hfx))
        exact (List.erase_cons_tail (by simpa using hyb)).symm

namespace Shows

variable {order list : List α} {a b : α}

theorem nil (order : List α) : Shows order [] := by
  rw [Shows, List.filter_eq_nil_iff]
  simp

theorem nodup (hnodup : order.Nodup) (h : Shows order list) : list.Nodup := by
  rw [← h]
  exact hnodup.filter _

/-- Orders that show the same of more elements show the same lists of them. -/
theorem congr {order' more : List α}
    (hsame : (order'.filter fun x => x ∈ more) = order.filter fun x => x ∈ more)
    (hsub : ∀ x ∈ list, x ∈ more) (h : Shows order list) : Shows order' list := by
  rw [Shows, ← filter_filter_mem hsub, hsame, filter_filter_mem hsub, h]

theorem singleton (hnodup : order.Nodup) (ha : a ∈ order) : Shows order [a] :=
  filter_mem_of_sublist hnodup (List.singleton_sublist.2 ha)

theorem sublist (hnodup : order.Nodup) (h : Shows order list) {fewer : List α}
    (hsub : fewer.Sublist list) : Shows order fewer := by
  rw [Shows, ← filter_filter_mem fun x hx => hsub.subset hx, h,
    filter_mem_of_sublist (h.nodup hnodup) hsub]

theorem erase_order (h : Shows order list) (ha : a ∉ list) : Shows (order.erase a) list := by
  rw [Shows, filter_erase_of_not (by simpa using ha), h]

/-- An element, new in the list or not, goes beside another one in both. -/
theorem putBeside (hnodup : order.Nodup) (h : Shows order list) (hb : b ∈ list) (hne : a ≠ b)
    (relation : Relation) :
    Shows (Tiling.putBeside relation a b (order.erase a))
      (Tiling.putBeside relation a b (list.erase a)) := by
  have hothers : Shows (order.erase a) (list.erase a) :=
    (h.sublist hnodup List.erase_sublist).erase_order (h.nodup hnodup).not_mem_erase
  have hb' : b ∈ list.erase a := (List.mem_erase_of_ne hne.symm).2 hb
  have hmem (x : α) : x ∈ Tiling.putBeside relation a b (list.erase a) ↔
      x = a ∨ x ∈ list.erase a := by
    rw [(putBeside_perm hb').mem_iff, List.mem_cons]
  have hsame : ((order.erase a).filter fun x => x ∈ Tiling.putBeside relation a b (list.erase a)) =
      (order.erase a).filter fun x => x ∈ list.erase a := by
    refine List.filter_congr fun x hx => ?_
    have hxa : x ≠ a := fun heq => hnodup.not_mem_erase (heq ▸ hx)
    simp [hmem, hxa]
  rw [Shows, filter_putBeside (by simp [hmem]) (by simp [hmem, hb']), hsame, hothers]

end Shows

end Tiling
