import Mathlib.Data.List.Dedup
import Tiling.Proofs.Stack.Linked
/-!
# The order of a stack

A stack holds a list of leaves, each once, bottom first.  Removing a leaf erases it from the
list; inserting a leaf beside an anchor moves it there.
-/

namespace Tiling.Stack

/-- The stack is well linked and its leaves are the given ones, bottom first, each once. -/
def Holds (s : Stack) (l : List NodeId) : Prop :=
  l.Nodup ∧ ∃ places, s.Linked places ∧ places.map Prod.snd = l

namespace Holds

theorem empty : Stack.empty.Holds [] := ⟨List.nodup_nil, [], linked_empty, rfl⟩

theorem toList_eq {s : Stack} {l : List NodeId} (h : s.Holds l) : s.toList = l := by
  obtain ⟨-, places, hlinked, rfl⟩ := h
  exact hlinked.toList_eq

theorem unique {s : Stack} {l l' : List NodeId} (h : s.Holds l) (h' : s.Holds l') : l = l' := by
  rw [← h.toList_eq, h'.toList_eq]

theorem isEmpty_eq {s : Stack} {l : List NodeId} (h : s.Holds l) : s.isEmpty = l.isEmpty := by
  obtain ⟨-, places, hlinked, rfl⟩ := h
  rw [isEmpty, hlinked.head]
  cases places <;> rfl

theorem singleton (n : NodeId) : (Stack.singleton n).Holds [n] := by
  have hnil : Stack.empty.Linked ([] ++ []) := linked_empty
  obtain ⟨id, hlinked⟩ := hnil.link n
  exact ⟨by simp, _, hlinked, rfl⟩

end Holds

theorem filter_ne_eq_self {places : List Place} {n : NodeId} (h : n ∉ places.map Prod.snd) :
    places.filter (·.2 != n) = places := by
  rw [List.filter_eq_self]
  intro x hx
  simp only [bne_iff_ne]
  exact fun heq => h (List.mem_map.2 ⟨x, hx, heq⟩)

/-- Removing a leaf takes its place out of the list. -/
theorem Linked.removeNode {s : Stack} {places : List Place} (h : s.Linked places)
    (hnodup : (places.map Prod.snd).Nodup) (n : NodeId) :
    (s.removeNode n).Linked (places.filter (·.2 != n)) := by
  by_cases hn : n ∈ places.map Prod.snd
  · obtain ⟨x, hx, rfl⟩ := List.mem_map.1 hn
    obtain ⟨before, after, rfl⟩ := List.append_of_mem hx
    rw [List.map_append, List.map_cons, List.nodup_append, List.nodup_cons] at hnodup
    obtain ⟨-, ⟨hafter, -⟩, hdisjoint⟩ := hnodup
    have hbefore : x.2 ∉ before.map Prod.snd := fun hmem =>
      hdisjoint x.2 hmem x.2 List.mem_cons_self rfl
    rw [List.filter_append, List.filter_cons_of_neg (by simp), filter_ne_eq_self hbefore,
      filter_ne_eq_self hafter, Stack.removeNode, h.find?_eq hbefore]
    exact h.unlink
  · rw [filter_ne_eq_self hn, Stack.removeNode, h.find?_eq_none hn]
    exact h

theorem map_filter_ne {places : List Place} (hnodup : (places.map Prod.snd).Nodup) (n : NodeId) :
    (places.filter (·.2 != n)).map Prod.snd = (places.map Prod.snd).erase n := by
  rw [hnodup.erase_eq_filter, List.filter_map]
  rfl

namespace Holds

theorem removeNode {s : Stack} {l : List NodeId} (h : s.Holds l) (n : NodeId) :
    (s.removeNode n).Holds (l.erase n) := by
  obtain ⟨hnodup, places, hlinked, rfl⟩ := h
  exact ⟨hnodup.erase n, _, hlinked.removeNode hnodup n, map_filter_ne hnodup n⟩

/-- The place of an anchor once a leaf is taken out. -/
theorem exists_places {s : Stack} {l left right : List NodeId} (h : s.Holds l) {a : EntryId}
    {n m : NodeId} (ha : s.node? a = some m) (hsplit : l.erase n = left ++ m :: right) :
    ∃ before after, (s.removeNode n).Linked (before ++ (a, m) :: after) ∧
      before.map Prod.snd = left ∧ after.map Prod.snd = right := by
  obtain ⟨hnodup, places, hlinked, rfl⟩ := h
  have hremoved := hlinked.removeNode hnodup n
  rw [← map_filter_ne hnodup n] at hsplit
  obtain ⟨before, rest, hplaces, hbefore, hrest⟩ := List.map_eq_append_iff.1 hsplit
  obtain ⟨x, after, rfl, hx, hafter⟩ := List.map_eq_cons_iff.1 hrest
  have hxa : x = (a, m) := by
    obtain ⟨e, he, -⟩ : ∃ e, s.entry? a = some e ∧ e.node = m := by
      simpa [node?] using ha
    obtain ⟨y, hy, hya⟩ := List.mem_map.1 (hlinked.covers a (by simp [he]))
    have hym : y.2 = m := by
      have hnode := hlinked.node?_mem hy
      rw [hya, ha] at hnode
      exact (Option.some.inj hnode).symm
    have hxmem : x ∈ places := by
      have hmem : x ∈ places.filter (·.2 != n) := by simp [hplaces]
      exact (List.mem_filter.1 hmem).1
    have hxy : x = y := List.inj_on_of_nodup_map hnodup hxmem hy (by rw [hx, hym])
    rw [hxy, ← hya, ← hym]
  rw [hplaces, hxa] at hremoved
  exact ⟨before, after, hremoved, hbefore, hafter⟩

theorem insertAfter {s : Stack} {l left right : List NodeId} (h : s.Holds l) {a : EntryId}
    {n m : NodeId} (ha : s.node? a = some m) (hne : m ≠ n)
    (hsplit : l.erase n = left ++ m :: right) :
    (s.insertAfter (some a) n).Holds (left ++ m :: n :: right) := by
  obtain ⟨before, after, hlinked, hbefore, hafter⟩ := h.exists_places ha hsplit
  have hentry := hlinked.entry before (a, m) after rfl
  have hjoin : before ++ (a, m) :: after = (before ++ [(a, m)]) ++ after := by simp
  rw [hjoin] at hlinked
  obtain ⟨id, hnew⟩ := hlinked.link n
  have hinsert : s.insertAfter (some a) n = (s.removeNode n).link n (some a) (nextOf after) := by
    simp only [Stack.insertAfter, ha, Option.some_beq_some, beq_eq_false_iff_ne.2 hne, hentry]
    rfl
  rw [prevOf_concat] at hnew
  rw [hinsert]
  refine ⟨?_, _, hnew, by simp [hbefore, hafter]⟩
  have hperm : (left ++ m :: n :: right).Perm (n :: l.erase n) := by
    rw [hsplit]
    exact (List.Perm.append_left left (List.Perm.swap n m right)).trans List.perm_middle
  rw [hperm.nodup_iff, List.nodup_cons]
  exact ⟨h.1.not_mem_erase, h.1.erase n⟩

theorem insertBefore {s : Stack} {l left right : List NodeId} (h : s.Holds l) {a : EntryId}
    {n m : NodeId} (ha : s.node? a = some m) (hne : m ≠ n)
    (hsplit : l.erase n = left ++ m :: right) :
    (s.insertBefore (some a) n).Holds (left ++ n :: m :: right) := by
  obtain ⟨before, after, hlinked, hbefore, hafter⟩ := h.exists_places ha hsplit
  have hentry := hlinked.entry before (a, m) after rfl
  obtain ⟨id, hnew⟩ := hlinked.link n
  have hinsert : s.insertBefore (some a) n = (s.removeNode n).link n (prevOf before) (some a) := by
    simp only [Stack.insertBefore, ha, Option.some_beq_some, beq_eq_false_iff_ne.2 hne, hentry]
    rfl
  rw [nextOf_cons] at hnew
  rw [hinsert]
  refine ⟨?_, _, hnew, by simp [hbefore, hafter]⟩
  have hperm : (left ++ n :: m :: right).Perm (n :: l.erase n) := by
    rw [hsplit]
    exact List.perm_middle
  rw [hperm.nodup_iff, List.nodup_cons]
  exact ⟨h.1.not_mem_erase, h.1.erase n⟩

/-- A leaf that is placed above the front comes last, wherever it was before. -/
theorem insertAfter_tail {s : Stack} {l : List NodeId} (h : s.Holds l) (n : NodeId) :
    (s.insertAfter s.tail n).Holds (l.erase n ++ [n]) := by
  obtain ⟨places, hlinked, rfl⟩ := h.2
  have htail := hlinked.tail
  cases places using List.reverseRecOn with
  | nil =>
    rw [htail]
    exact Holds.singleton n
  | append_singleton before x =>
    rw [prevOf_concat] at htail
    have hnode := hlinked.node?_mem (x := x) (by simp)
    have hlist : (before ++ [x]).map Prod.snd = before.map Prod.snd ++ [x.2] := List.map_append
    rw [htail]
    by_cases heq : x.2 = n
    · have hstays : s.insertAfter (some x.1) n = s := by simp [Stack.insertAfter, hnode, heq]
      have hnodup := h.1
      rw [hlist, List.nodup_append] at hnodup
      have hnot : n ∉ before.map Prod.snd := fun hmem => hnodup.2.2 n hmem x.2 (by simp) heq.symm
      have herase :
          (before.map Prod.snd ++ [x.2]).erase n ++ [n] = before.map Prod.snd ++ [x.2] := by
        rw [List.erase_append_right _ hnot, heq, List.erase_cons_head, List.append_nil]
      rw [hstays, hlist, herase, ← hlist]
      exact h
    · have hsplit : ((before ++ [x]).map Prod.snd).erase n =
          (before.map Prod.snd).filter (· != n) ++ x.2 :: [] := by
        rw [h.1.erase_eq_filter, List.map_append, List.filter_append]
        simp [heq]
      have hinsert := h.insertAfter hnode heq hsplit
      rw [hsplit]
      simpa using hinsert

/-- Of equal elements the last one is kept, so an element that comes last replaces an earlier
one. -/
theorem dedup_concat (order : List NodeId) (n : NodeId) :
    (order ++ [n]).dedup = order.dedup.erase n ++ [n] := by
  induction order with
  | nil => rfl
  | cons m order ih =>
    rw [List.cons_append]
    by_cases hm : m ∈ order
    · rw [List.dedup_cons_of_mem (by simp [hm]), List.dedup_cons_of_mem hm, ih]
    · rw [List.dedup_cons_of_notMem hm]
      by_cases heq : m = n
      · subst heq
        have hnot : m ∉ order.dedup := fun hmem => hm (List.mem_dedup.1 hmem)
        rw [List.dedup_cons_of_mem (by simp), ih, List.erase_of_not_mem hnot, List.erase_cons_head]
      · rw [List.dedup_cons_of_notMem (by simp [hm, heq]), ih,
          List.erase_cons_tail (by simpa using heq), List.cons_append]

theorem ofList_dedup (order : List NodeId) : (Stack.ofList order).Holds order.dedup := by
  induction order using List.reverseRecOn with
  | nil => exact empty
  | append_singleton order n ih =>
    rw [dedup_concat, Stack.ofList, List.foldl_append]
    exact ih.insertAfter_tail n

theorem ofList {l : List NodeId} (h : l.Nodup) : (Stack.ofList l).Holds l := by
  have hholds := ofList_dedup l
  rwa [h.dedup] at hholds

end Holds

end Tiling.Stack
