import Mathlib.Data.List.Basic
import Mathlib.Data.List.Nodup
import Tiling.Model.Neighbour
/-!
# The closest candidate

A neighbour is one of the candidates, and no candidate is closer, in whatever way equally close
ones are told apart.
-/

namespace Tiling.Model

/-! ## The best of a list -/

section Least

variable {α : Type} {before : α → α → Bool} {l : List α} {p q : α}

/-- What is left when each element takes the place of the best so far if it comes before it. -/
def least? (before : α → α → Bool) : List α → Option α
  | [] => none
  | first :: rest => some (rest.foldl (fun best x => if before x best then x else best) first)

theorem least?_eq_none : least? before l = none ↔ l = [] := by
  cases l <;> simp [least?]

theorem least?_cons_cons (before : α → α → Bool) (a b : α) (l : List α) :
    least? before (a :: b :: l) = least? before ((if before b a then b else a) :: l) := rfl

/-- The best element is at or before each of them in any order that `before` follows. -/
theorem least?_spec {S : α → Prop} {R : α → α → Prop} (hl : ∀ a ∈ l, S a) (hrefl : ∀ a, S a → R a a)
    (htrans : ∀ a b c, S a → S b → S c → R a b → R b c → R a c)
    (hlt : ∀ a b, S a → S b → before a b = true → R a b)
    (hge : ∀ a b, S a → S b → before a b = false → R b a) (h : least? before l = some p) :
    p ∈ l ∧ ∀ q ∈ l, R p q := by
  cases l with
  | nil => cases h
  | cons first rest =>
    induction rest generalizing first with
    | nil =>
      obtain rfl := Option.some.inj h
      exact ⟨List.mem_singleton_self _, List.forall_mem_singleton.2
        (hrefl _ (hl _ (List.mem_singleton_self _)))⟩
    | cons second rest ih =>
      rw [least?_cons_cons] at h
      obtain ⟨hfirst, hsecond, hrest⟩ : S first ∧ S second ∧ ∀ a ∈ rest, S a := by simpa using hl
      cases hbefore : before second first with
      | true =>
        rw [hbefore, if_pos rfl] at h
        obtain ⟨hmem, hle⟩ := ih second (List.forall_mem_cons.2 ⟨hsecond, hrest⟩) h
        have hp : S p := hl p (List.mem_cons_of_mem _ hmem)
        refine ⟨List.mem_cons_of_mem _ hmem, List.forall_mem_cons.2 ⟨?_, hle⟩⟩
        exact htrans _ _ _ hp hsecond hfirst (hle second List.mem_cons_self)
          (hlt _ _ hsecond hfirst hbefore)
      | false =>
        rw [hbefore, if_neg Bool.false_ne_true] at h
        obtain ⟨hmem, hle⟩ := ih first (List.forall_mem_cons.2 ⟨hfirst, hrest⟩) h
        have hmem : p ∈ first :: second :: rest :=
          List.mem_cons.2 ((List.mem_cons.1 hmem).imp_right (List.mem_cons_of_mem _))
        obtain ⟨hpfirst, hprest⟩ := List.forall_mem_cons.1 hle
        refine ⟨hmem, List.forall_mem_cons.2 ⟨hpfirst, List.forall_mem_cons.2 ⟨?_, hprest⟩⟩⟩
        exact htrans _ _ _ (hl p hmem) hfirst hsecond hpfirst (hge _ _ hsecond hfirst hbefore)

theorem least?_mem (h : least? before l = some p) : p ∈ l :=
  (least?_spec (S := fun _ => True) (R := fun _ _ => True) (by simp) (by simp) (by simp) (by simp)
    (by simp) h).1

/-- An element that is before every other one, and none of them before it, is the best. -/
theorem least?_of_first (hp : p ∈ l)
    (hfirst : ∀ q ∈ l, q ≠ p → before p q = true ∧ before q p = false) :
    least? before l = some p := by
  obtain ⟨best, hbest⟩ := Option.ne_none_iff_exists'.1
    (least?_eq_none.not.2 (List.ne_nil_of_mem hp) : least? before l ≠ none)
  -- the order in which nothing but `p` comes before `p`
  have hspec := least?_spec (S := (· ∈ l)) (R := fun a b => b = p → a = p) (fun _ => id)
    (fun _ _ => id) (fun a b c _ _ _ hab hbc hc => hab (hbc hc))
    (fun a b ha hb hbefore heq => by
      subst heq
      by_contra hne
      rw [(hfirst a ha hne).2] at hbefore
      cases hbefore)
    (fun a b ha hb hbefore heq => by
      subst heq
      by_contra hne
      rw [(hfirst b hb hne).1] at hbefore
      cases hbefore) hbest
  rw [hbest, hspec.2 p hp rfl]

/-- An element that is the best in every order of the list is before every other one: it must
take the place of each. -/
theorem before_of_perm (hnodup : l.Nodup) (h : ∀ l', l'.Perm l → least? before l' = some p)
    (hq : q ∈ l) (hne : q ≠ p) : before p q = true := by
  classical
  have hp : p ∈ l := least?_mem (h l (List.Perm.refl l))
  have hmem : p ∈ l.erase q := (List.mem_erase_of_ne hne.symm).2 hp
  have hperm : (q :: p :: (l.erase q).erase p).Perm l :=
    ((List.perm_cons_erase hmem).symm.cons q).trans (List.perm_cons_erase hq).symm
  have hbest := h _ hperm
  by_contra hnot
  rw [least?_cons_cons, if_neg hnot] at hbest
  rcases List.mem_cons.1 (least?_mem hbest) with heq | hrest
  · exact hne heq.symm
  · exact (hnodup.erase q).not_mem_erase hrest

end Least

variable {m : Model} {n n' : NodeId} {root : Option NodeId} {rect : Rect} {dir : Direction}
  {tightness : Tightness} {places : List (NodeId × Rect)} {place : NodeId × Rect}
  {tie : Rect → Rect → Ordering}

/-! ## The closest place -/

/-- The closest place, where `tie` decides between equally close ones. -/
def closestBy (tie : Rect → Rect → Ordering) (r : Rect) (dir : Direction) :
    List (NodeId × Rect) → Option (NodeId × Rect) :=
  least? fun a b =>
    (compare (r.edgeDistance a.2 dir) (r.edgeDistance b.2 dir)).then (tie a.2 b.2) == .lt

theorem closest?_eq (r : Rect) (dir : Direction) (places : List (NodeId × Rect)) :
    closest? r dir places = closestBy Rect.readingOrder r dir places := by
  cases places <;> rfl

theorem closest?_eq_none : closest? rect dir places = none ↔ places = [] := by
  rw [closest?_eq, closestBy, least?_eq_none]

/-- The closest place is one of the places, and none is closer. -/
theorem closestBy_spec (h : closestBy tie rect dir places = some place) : place ∈ places ∧
    ∀ other ∈ places, rect.edgeDistance place.2 dir ≤ rect.edgeDistance other.2 dir := by
  refine least?_spec (S := fun _ => True)
    (R := fun a b : NodeId × Rect => rect.edgeDistance a.2 dir ≤ rect.edgeDistance b.2 dir)
    (by simp) (fun _ _ => Nat.le_refl _) (fun _ _ _ _ _ _ => Nat.le_trans) ?_ ?_ h
  · intro a b _ _ hbefore
    rcases Ordering.then_eq_lt.1 (beq_iff_eq.1 hbefore) with hlt | ⟨heq, -⟩
    · exact Nat.le_of_lt (Nat.compare_eq_lt.1 hlt)
    · exact Nat.le_of_eq (Nat.compare_eq_eq.1 heq)
  · intro a b _ _ hbefore
    rw [beq_eq_false_iff_ne, ne_eq, Ordering.then_eq_lt, Nat.compare_eq_lt] at hbefore
    exact Nat.le_of_not_lt fun hlt => hbefore (.inl hlt)

theorem closest?_spec (h : closest? rect dir places = some place) : place ∈ places ∧
    ∀ other ∈ places, rect.edgeDistance place.2 dir ≤ rect.edgeDistance other.2 dir :=
  closestBy_spec (closest?_eq rect dir places ▸ h)

theorem closeness_eq_lt_iff {a b : Rect} : closeness rect dir a b = .lt ↔
    rect.edgeDistance a dir < rect.edgeDistance b dir ∨
      rect.edgeDistance a dir = rect.edgeDistance b dir ∧ a.readingOrder b = .lt := by
  rw [closeness, Ordering.then_eq_lt, Nat.compare_eq_lt, Nat.compare_eq_eq]

theorem visibleRect?_of_client {node : Node} {c : Client} (hnode : m.tree.get? n = some node)
    (hc : node.client = some c) : m.visibleRect? n =
      some (if c.state == .floating then c.floatingRect else node.rect) := by
  simp only [visibleRect?, hnode, hc, Option.bind_eq_bind, Option.bind_some, Option.pure_def]

theorem isSome_client?_of_visible (h : m.visibleRect? n = some rect) :
    (m.tree.client? n).isSome := by
  obtain ⟨node, hnode, hrest⟩ := Option.bind_eq_some_iff.1 h
  obtain ⟨client, hclient, -⟩ := Option.bind_eq_some_iff.1 hrest
  rw [Tree.client?, hnode, Option.bind_some, hclient, Option.isSome_some]

theorem exists_visible (hn : (m.tree.client? n).isSome) : ∃ rect, m.visibleRect? n = some rect := by
  obtain ⟨client, hclient⟩ := Option.isSome_iff_exists.1 hn
  obtain ⟨node, hnode, hclient⟩ := Option.bind_eq_some_iff.1 hclient
  exact ⟨_, visibleRect?_of_client hnode hclient⟩

/-! ## The neighbour -/

theorem mem_candidates : place ∈ m.candidates n root rect dir tightness ↔
    (place.1 ∈ m.tree.leaves root ∧ place.1 ≠ n) ∧ m.visibleRect? place.1 = some place.2 ∧
      rect.onSide place.2 dir tightness = true := by
  obtain ⟨c, r⟩ := place
  simp only [candidates, List.mem_filterMap, List.mem_filter, bne_iff_ne, Option.map_eq_some_iff,
    Option.filter_eq_some_iff, Prod.mk.injEq]
  constructor
  · rintro ⟨_, hc, _, hr, rfl, rfl⟩
    exact ⟨hc, hr⟩
  · rintro ⟨hc, hr⟩
    exact ⟨c, hc, r, hr, rfl, rfl⟩

theorem neighbour?_eq {r : DesktopRef} {d : Desktop} (hlocate : m.locate? n = some r)
    (hd : m.desktop? r = some d) (hrect : m.visibleRect? n = some rect) (dir : Direction)
    (tightness : Tightness) : m.neighbour? n dir tightness =
    (closest? rect dir (m.candidates n d.root rect dir tightness)).map Prod.fst := by
  simp only [neighbour?, hlocate, hd, hrect, Option.bind_eq_bind, Option.bind_some, Option.pure_def]
  cases closest? rect dir (m.candidates n d.root rect dir tightness) <;> rfl

theorem isSome_client?_of_neighbour (h : m.neighbour? n dir tightness = some n') :
    (m.tree.client? n').isSome := by
  obtain ⟨d, hd, hrest⟩ := Option.bind_eq_some_iff.1 h
  obtain ⟨r, hr, hrest⟩ := Option.bind_eq_some_iff.1 hrest
  obtain ⟨place, hplace, hplace'⟩ := Option.bind_eq_some_iff.1 hrest
  obtain rfl : place.1 = n' := by simpa using hplace'
  exact isSome_client?_of_visible (mem_candidates.1 (closest?_spec hplace).1).2.1

end Tiling.Model
