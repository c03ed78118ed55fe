import Tiling.Proofs.Stack.Beside
/-!
# Edits of a stack

Whatever is put into a stack and taken out of it, its entries form one list without repetitions,
and an edit does to that list what its name says.  An anchor may be live, stale or missing: it
counts as the leaf that its slot holds at the time of the edit, whoever held the slot before.
-/

namespace Tiling.Stack

/-! ## Entry by entry -/

/-- The slot directly above an entry. -/
def next? (s : Stack) (id : EntryId) : Option EntryId := (s.entry? id).bind Entry.next

/-- The slot directly below an entry. -/
def prev? (s : Stack) (id : EntryId) : Option EntryId := (s.entry? id).bind Entry.prev

/-- The entries hang together, as somebody sees it who follows one link at a time. -/
structure Coherent (s : Stack) : Prop where
  /-- The free list names every unused slot once. -/
  slots : s.entries.WellFormed
  mirrored : ∀ a b, s.next? a = some b ↔ s.prev? b = some a
  /-- The bottom is the one entry with nothing below it. -/
  head_iff : ∀ a, s.head = some a ↔ ∃ e, s.entry? a = some e ∧ e.prev = none
  /-- The front is the one entry with nothing above it. -/
  tail_iff : ∀ a, s.tail = some a ↔ ∃ e, s.entry? a = some e ∧ e.next = none
  /-- The walk from the bottom passes every entry, and no unused slot. -/
  reached : ∀ a, (s.entry? a).isSome ↔ a ∈ s.upward
  reversed : s.downward = s.upward.reverse
  nodup : s.toList.Nodup

namespace Linked

variable {s : Stack} {places before after : List Place}

theorem exists_split (h : s.Linked places) {a : EntryId} {e : Entry} (ha : s.entry? a = some e) :
    ∃ before after, places = before ++ (a, e.node) :: after := by
  obtain ⟨x, hx, rfl⟩ := List.mem_map.1 (h.covers a (by simp [ha]))
  obtain ⟨before, after, hsplit⟩ := List.append_of_mem hx
  have hnode := h.entry before x after hsplit
  obtain rfl : e = ⟨x.2, prevOf before, nextOf after⟩ := Option.some.inj (ha.symm.trans hnode)
  exact ⟨before, after, hsplit⟩

theorem next?_eq {x : Place} (h : s.Linked (before ++ x :: after)) :
    s.next? x.1 = nextOf after := by
  rw [next?, h.entry before x after rfl, Option.bind_some]

theorem prev?_eq {x : Place} (h : s.Linked (before ++ x :: after)) :
    s.prev? x.1 = prevOf before := by
  rw [prev?, h.entry before x after rfl, Option.bind_some]

/-- Two entries next to each other name each other. -/
theorem mirrored (h : s.Linked places) (a b : EntryId) :
    s.next? a = some b ↔ s.prev? b = some a := by
  constructor
  · intro hab
    obtain ⟨e, he, -⟩ := Option.bind_eq_some_iff.1 hab
    obtain ⟨before, after, rfl⟩ := h.exists_split he
    rw [h.next?_eq] at hab
    cases after with
    | nil => cases hab
    | cons y after =>
      obtain rfl := Option.some.inj hab
      rw [List.append_cons] at h
      rw [h.prev?_eq, prevOf_concat]
  · intro hba
    obtain ⟨e, he, -⟩ := Option.bind_eq_some_iff.1 hba
    obtain ⟨before, after, rfl⟩ := h.exists_split he
    rw [h.prev?_eq] at hba
    cases before using List.reverseRecOn with
    | nil => cases hba
    | append_singleton before y =>
      rw [prevOf_concat] at hba
      obtain rfl := Option.some.inj hba
      rw [← List.append_cons] at h
      rw [h.next?_eq, nextOf_cons]

theorem head_iff (h : s.Linked places) (a : EntryId) :
    s.head = some a ↔ ∃ e, s.entry? a = some e ∧ e.prev = none := by
  rw [h.head]
  constructor
  · intro ha
    cases places with
    | nil => cases ha
    | cons x after =>
      obtain rfl := Option.some.inj ha
      exact ⟨_, h.entry [] x after rfl, rfl⟩
  · rintro ⟨e, he, hprev⟩
    obtain ⟨before, after, rfl⟩ := h.exists_split he
    rw [h.entry before _ after rfl] at he
    cases before using List.reverseRecOn with
    | nil => rfl
    | append_singleton before y =>
      rw [← Option.some.inj he, prevOf_concat] at hprev
      cases hprev

theorem tail_iff (h : s.Linked places) (a : EntryId) :
    s.tail = some a ↔ ∃ e, s.entry? a = some e ∧ e.next = none := by
  rw [h.tail]
  constructor
  · intro ha
    cases places using List.reverseRecOn with
    | nil => cases ha
    | append_singleton before x =>
      rw [prevOf_concat] at ha
      obtain rfl := Option.some.inj ha
      exact ⟨_, h.entry before x [] rfl, rfl⟩
  · rintro ⟨e, he, hnext⟩
    obtain ⟨before, after, rfl⟩ := h.exists_split he
    rw [h.entry before _ after rfl] at he
    cases after with
    | nil => exact prevOf_concat before _
    | cons y after =>
      rw [← Option.some.inj he] at hnext
      cases hnext

end Linked

theorem Holds.coherent {s : Stack} {l : List NodeId} (h : s.Holds l) : s.Coherent := by
  have hlist := h.toList_eq
  obtain ⟨hnodup, places, hlinked, rfl⟩ := h
  refine ⟨hlinked.slots, hlinked.mirrored, hlinked.head_iff, hlinked.tail_iff, fun a => ?_, ?_, ?_⟩
  · rw [hlinked.upward_eq]
    refine ⟨hlinked.covers a, fun ha => ?_⟩
    obtain ⟨x, hx, rfl⟩ := List.mem_map.1 ha
    obtain ⟨e, he, -⟩ := hlinked.entry?_mem hx
    rw [he, Option.isSome_some]
  · rw [hlinked.downward_eq, hlinked.upward_eq]
  · rwa [hlist]

/-! ## Edits -/

/-- A change of a stack. -/
inductive Edit where
  | insertAfter (anchor : Option EntryId) (n : NodeId)
  | insertBefore (anchor : Option EntryId) (n : NodeId)
  | removeNode (n : NodeId)
  | remove (t : Tree) (n : NodeId)
  /-- Starts over with some leaves. -/
  | ofList (order : List NodeId)

def edit (s : Stack) : Edit → Stack
  | .insertAfter anchor n => s.insertAfter anchor n
  | .insertBefore anchor n => s.insertBefore anchor n
  | .removeNode n => s.removeNode n
  | .remove t n => s.remove t n
  | .ofList order => Stack.ofList order

/-- The stack after some edits of an empty one. -/
def ofEdits (edits : List Edit) : Stack := edits.foldl edit empty

/-- Puts a leaf beside what the anchor's slot holds. Without an anchor the leaf becomes the whole
list; at an unused slot it is only taken out; and beside itself it stays where it is. -/
def putAt (relation : Relation) (anchor : Option (Option NodeId)) (n : NodeId) (l : List NodeId) :
    List NodeId :=
  match anchor with
  | none => [n]
  | some none => l.erase n
  | some (some m) => if m = n then l else putBeside relation n m (l.erase n)

/-- What an edit makes of a list, given the leaf in each slot. -/
def Edit.onList (node? : EntryId → Option NodeId) (l : List NodeId) : Edit → List NodeId
  | .insertAfter anchor n => putAt .above (anchor.map node?) n l
  | .insertBefore anchor n => putAt .below (anchor.map node?) n l
  | .removeNode n => l.erase n
  | .remove t n => l.filter fun m => m ∉ t.leaves (some n)
  | .ofList order => order.dedup

namespace Holds

variable {s : Stack} {l : List NodeId}

theorem mem_of_node? (h : s.Holds l) {a : EntryId} {m : NodeId} (ha : s.node? a = some m) :
    m ∈ l := by
  obtain ⟨-, places, hlinked, rfl⟩ := h
  obtain ⟨e, he, rfl⟩ := Option.map_eq_some_iff.1 ha
  obtain ⟨before, after, rfl⟩ := hlinked.exists_split he
  simp

/-- Taking a leaf out gives no unused slot an entry. -/
theorem entry?_removeNode_of_none (h : s.Holds l) {a : EntryId} (ha : s.entry? a = none)
    (n : NodeId) : Stack.entry? (s.removeNode n) a = none := by
  obtain ⟨hnodup, places, hlinked, rfl⟩ := h
  have hremoved := hlinked.removeNode hnodup n
  rw [← Option.not_isSome_iff_eq_none]
  intro hlive
  obtain ⟨x, hx, rfl⟩ := List.mem_map.1 (hremoved.covers a hlive)
  obtain ⟨e, he, -⟩ := hlinked.entry?_mem (List.mem_filter.1 hx).1
  rw [ha] at he
  cases he

theorem insert (h : s.Holds l) (relation : Relation) (anchor : Option EntryId) (n : NodeId) :
    Holds (match relation with
      | .above => s.insertAfter anchor n
      | .below => s.insertBefore anchor n) (putAt relation (anchor.map s.node?) n l) := by
  cases anchor with
  | none => cases relation <;> exact Holds.singleton n
  | some a =>
    rw [Option.map_some]
    cases ha : s.node? a with
    | none =>
      have hentry : s.entry? a = none := Option.map_eq_none_iff.1 ha
      have hgone := h.entry?_removeNode_of_none hentry n
      cases relation <;> simpa [Stack.insertAfter, Stack.insertBefore, ha, hgone, putAt] using
        h.removeNode n
    | some m =>
      by_cases heq : m = n
      · cases relation <;> simpa [Stack.insertAfter, Stack.insertBefore, ha, heq, putAt] using h
      · have hm : m ∈ l.erase n := (List.mem_erase_of_ne heq).2 (h.mem_of_node? ha)
        rw [putAt, if_neg heq]
        exact h.insertBeside ha hm relation

theorem edit (h : s.Holds l) (e : Edit) : (s.edit e).Holds (e.onList s.node? l) := by
  cases e with
  | insertAfter anchor n => exact h.insert .above anchor n
  | insertBefore anchor n => exact h.insert .below anchor n
  | removeNode n => exact h.removeNode n
  | remove t n =>
    have hremove := h.remove t n
    rwa [← List.diff_eq_foldl, h.1.sdiff_eq_filter] at hremove
  | ofList order => exact Holds.ofList_dedup order

end Holds

theorem exists_holds_ofEdits (edits : List Edit) : ∃ l, (ofEdits edits).Holds l := by
  induction edits using List.reverseRecOn with
  | nil => exact ⟨[], Holds.empty⟩
  | append_singleton edits e ih =>
    obtain ⟨l, hl⟩ := ih
    rw [ofEdits, List.foldl_append]
    exact ⟨_, hl.edit e⟩

/-- After any edits the entries hang together, and one more edit does to the list of leaves what
it does to a list. -/
theorem coherent_ofEdits (edits : List Edit) :
    (ofEdits edits).Coherent ∧ ∀ e, ((ofEdits edits).edit e).toList =
      e.onList (ofEdits edits).node? (ofEdits edits).toList := by
  obtain ⟨l, hl⟩ := exists_holds_ofEdits edits
  refine ⟨hl.coherent, fun e => ?_⟩
  rw [(hl.edit e).toList_eq, hl.toList_eq]

-- The slot of an anchor is taken by another leaf, which counts from then on.
example : (ofEdits [.ofList [⟨1⟩, ⟨2⟩], .removeNode ⟨1⟩, .insertAfter (some ⟨1⟩) ⟨3⟩,
    .insertBefore (some ⟨0⟩) ⟨2⟩]).toList = [⟨2⟩, ⟨3⟩] := by
  decide

end Tiling.Stack
