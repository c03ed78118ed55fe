import Tiling.Proofs.Stack.Edits
import Tiling.Proofs.Tree.Traversals
/-!
# Rebuilt stacks

A stack is rebuilt from a list of leaves by placing one after the other above the front.  A leaf
that comes again leaves its earlier place, so the stack reads back the last occurrences of the
list, in their order.
-/

namespace Tiling

/-! ## Last occurrences -/

section LastOccurrences

variable {α : Type}

/-- The last `a` of a list comes before its last `b`. -/
def LastBefore (l : List α) (a b : α) : Prop :=
  ∃ before after, l = before ++ a :: after ∧ a ∉ after ∧ b ∈ after

/-- The last `a` is the first element, or it is the last `a` of the rest. -/
theorem lastBefore_cons {l : List α} {x a b : α} :
    LastBefore (x :: l) a b ↔ (x = a ∧ a ∉ l ∧ b ∈ l) ∨ LastBefore l a b := by
  constructor
  · rintro ⟨before, after, hsplit, ha, hb⟩
    rcases List.cons_eq_append_iff.1 hsplit with ⟨rfl, hafter⟩ | ⟨before, rfl, rfl⟩
    · obtain ⟨rfl, rfl⟩ := List.cons.inj hafter
      exact .inl ⟨rfl, ha, hb⟩
    · exact .inr ⟨before, after, rfl, ha, hb⟩
  · rintro (⟨rfl, ha, hb⟩ | ⟨before, after, rfl, ha, hb⟩)
    · exact ⟨[], l, rfl, ha, hb⟩
    · exact ⟨x :: before, after, rfl, ha, hb⟩

variable [DecidableEq α]

/-- The element at a place of a list, unless it comes again behind that place. -/
def lastAt? (l : List α) (i : Nat) : Option α := l[i]?.filter fun x => x ∉ l.drop (i + 1)

/-- A list with every element but its last occurrence left out. -/
def lastOccurrences (l : List α) : List α := (List.range l.length).filterMap (lastAt? l)

theorem lastAt?_cons_zero (x : α) (l : List α) :
    lastAt? (x :: l) 0 = if x ∈ l then none else some x := by
  by_cases hx : x ∈ l <;> simp [lastAt?, Option.filter, hx]

theorem lastAt?_cons_succ (x : α) (l : List α) (i : Nat) :
    lastAt? (x :: l) (i + 1) = lastAt? l i := by
  rw [lastAt?, List.getElem?_cons_succ, List.drop_succ_cons, lastAt?]

theorem lastOccurrences_cons (x : α) (l : List α) :
    lastOccurrences (x :: l) = if x ∈ l then lastOccurrences l else x :: lastOccurrences l := by
  have hrest : lastAt? (x :: l) ∘ Nat.succ = lastAt? l := funext (lastAt?_cons_succ x l)
  rw [lastOccurrences, List.length_cons, List.range_succ_eq_map]
  by_cases hx : x ∈ l
  · rw [if_pos hx, List.filterMap_cons_none (by rw [lastAt?_cons_zero, if_pos hx]),
      List.filterMap_map, hrest, lastOccurrences]
  · rw [if_neg hx, List.filterMap_cons_some (by rw [lastAt?_cons_zero, if_neg hx]),
      List.filterMap_map, hrest, lastOccurrences]

theorem lastOccurrences_eq_dedup (l : List α) : lastOccurrences l = l.dedup := by
  induction l with
  | nil => rfl
  | cons x l ih => rw [lastOccurrences_cons, List.dedup_cons, ih]

/-- Last occurrences keep their order. -/
theorem pair_sublist_dedup_iff {l : List α} {a b : α} :
    [a, b].Sublist l.dedup ↔ LastBefore l a b := by
  induction l with
  | nil => simp [LastBefore]
  | cons x l ih =>
    rw [lastBefore_cons, ← ih, List.dedup_cons]
    by_cases hx : x ∈ l
    · have hnot : ¬ (x = a ∧ a ∉ l ∧ b ∈ l) := fun ⟨heq, ha, _⟩ => ha (heq ▸ hx)
      rw [if_pos hx, or_iff_right hnot]
    · have hpair : [a, b].Sublist (x :: l.dedup) ↔ [a, b].Sublist l.dedup ∨ x = a ∧ b ∈ l := by
        simp [List.sublist_cons_iff, eq_comm]
      have hfirst : x = a ∧ b ∈ l ↔ x = a ∧ a ∉ l ∧ b ∈ l :=
        and_congr_right fun heq => (and_iff_right (heq ▸ hx)).symm
      rw [if_neg hx, hpair, hfirst, or_comm]

end LastOccurrences

namespace Stack

/-! ## Reading -/

/-- Reading upward: writes down the leaf of an entry and goes on to the entry above it. -/
def readRound (s : Stack) :
    List NodeId × Option EntryId → (List NodeId × Option EntryId) ⊕ List NodeId
  | (out, none) => .inr out
  | (out, some id) => .inl (out ++ (s.node? id).toList, s.next? id)

theorem Linked.ends_read {s : Stack} {before after : List Place} (h : s.Linked (before ++ after)) :
    Ends s.readRound (before.map Prod.snd, nextOf after) s.toList := by
  induction after generalizing before with
  | nil =>
    rw [h.toList_eq, List.append_nil]
    exact .done rfl
  | cons x after ih =>
    have hround : s.readRound (before.map Prod.snd, nextOf (x :: after)) =
        .inl ((before ++ [x]).map Prod.snd, nextOf after) := by
      rw [nextOf_cons, readRound, h.next?_eq, h.node?_mem (by simp), List.map_append]
      rfl
    apply Ends.again hround
    apply ih
    rwa [← List.append_cons]

theorem Holds.ends_read {s : Stack} {l : List NodeId} (h : s.Holds l) :
    Ends s.readRound ([], s.head) s.toList := by
  obtain ⟨-, places, hlinked, -⟩ := h
  have hall : s.Linked ([] ++ places) := hlinked
  rw [hlinked.head]
  exact hall.ends_read

/-! ## Rebuilding -/

/-- A list that is put into a stack is read back, with every element but its last occurrence
left out: reading comes to an end, nothing is lost, nothing comes twice, and what is read is in
the order of the last occurrences. -/
theorem ofList_read_back (order : List NodeId) :
    Ends (Stack.ofList order).readRound ([], (Stack.ofList order).head)
      (Stack.ofList order).toList ∧
    (Stack.ofList order).toList = lastOccurrences order ∧
    (∀ n, n ∈ (Stack.ofList order).toList ↔ n ∈ order) ∧
    (Stack.ofList order).toList.Nodup ∧
    (∀ a b, [a, b].Sublist (Stack.ofList order).toList ↔ LastBefore order a b) ∧
    ((Stack.ofList order).toList = order ↔ order.Nodup) := by
  have hholds := Holds.ofList_dedup order
  refine ⟨hholds.ends_read, ?_⟩
  rw [lastOccurrences_eq_dedup, hholds.toList_eq]
  exact ⟨rfl, fun n => List.mem_dedup, List.nodup_dedup order, fun a b => pair_sublist_dedup_iff,
    List.dedup_eq_self⟩

-- A leaf comes again from the bottom, at the front and from the middle.
example : (Stack.ofList [⟨1⟩, ⟨2⟩, ⟨3⟩, ⟨1⟩, ⟨1⟩, ⟨3⟩]).toList = [⟨2⟩, ⟨1⟩, ⟨3⟩] := by
  decide

end Stack

end Tiling
