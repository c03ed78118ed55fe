import Mathlib.Data.List.Induction
import Mathlib.Data.List.Nodup
import Tiling.Proofs.Slots
import Tiling.Stack.Basic
/-!
# Linked stacks

The entries of a well-linked stack form one list: following the links upward gives the list,
following them downward gives its reverse.  An entry is described by its place in the list, with
the entries before and after it, so that an edit changes the two neighbours of the place and no
other entry.
-/

namespace Tiling.Stack

/-- An entry with its slot, as far as the order of the list is concerned. -/
abbrev Place := EntryId × NodeId

/-- The slot below a place, given the places below it. -/
def prevOf (before : List Place) : Option EntryId := before.getLast?.map Prod.fst

/-- The slot above a place, given the places above it. -/
def nextOf (after : List Place) : Option EntryId := after.head?.map Prod.fst

@[simp] theorem prevOf_nil : prevOf [] = none := rfl

@[simp] theorem nextOf_nil : nextOf [] = none := rfl

@[simp] theorem nextOf_cons (x : Place) (after : List Place) : nextOf (x :: after) = some x.1 := rfl

@[simp] theorem prevOf_concat (before : List Place) (x : Place) :
    prevOf (before ++ [x]) = some x.1 := by
  simp [prevOf]

/-- The entries of the stack are the given ones, linked in this order, bottom first. -/
structure Linked (s : Stack) (places : List Place) : Prop where
  slots : s.entries.WellFormed
  nodup : (places.map Prod.fst).Nodup
  head : s.head = nextOf places
  tail : s.tail = prevOf places
  entry : ∀ before x after, places = before ++ x :: after →
    s.entry? x.1 = some ⟨x.2, prevOf before, nextOf after⟩
  covers : ∀ id, (s.entry? id).isSome → id ∈ places.map Prod.fst

theorem linked_empty : empty.Linked [] where
  slots := Slots.wellFormed_empty
  nodup := List.nodup_nil
  head := rfl
  tail := rfl
  entry before x after h := by simp at h
  covers id h := by simp [Stack.entry?, empty, Slots.get?_empty] at h

/-! ## Changed entries -/

theorem entry?_modifyEntry (s : Stack) (i j : EntryId) (f : Entry → Entry) :
    Stack.entry? (s.modifyEntry i f) j = if i = j then (s.entry? i).map f else s.entry? j := by
  rw [Stack.entry?, modifyEntry, Slots.get?_modify]
  by_cases h : i = j
  · subst h
    simp [Stack.entry?]
  · rw [if_neg h, if_neg fun heq => h (congrArg EntryId.mk heq), entry?]

/-- A link of an optional entry is changed, or the stack's own link to the list. -/
theorem entry?_relink (s s' : Stack) (hs : s'.entries = s.entries)
    (id : Option EntryId) (f : Entry → Entry) (j : EntryId) :
    Stack.entry? (match id.filter fun i => (s.entry? i).isSome with
      | some i => s.modifyEntry i f
      | none => s') j =
      if id = some j then (s.entry? j).map f else s.entry? j := by
  have hs' (k : EntryId) : s'.entry? k = s.entry? k := by rw [Stack.entry?, hs, Stack.entry?]
  cases id with
  | none => simp [hs']
  | some i =>
    cases hi : s.entry? i with
    | none =>
      simp only [Option.filter, hi, Option.isSome_none, Bool.false_eq_true, if_false, hs']
      by_cases h : some i = some j
      · obtain rfl : i = j := by simpa using h
        rw [if_pos h, hi, Option.map_none]
      · rw [if_neg h]
    | some e =>
      simp only [Option.filter, hi, Option.isSome_some, if_true, entry?_modifyEntry]
      by_cases h : i = j
      · subst h
        simp [hi]
      · simp [h]

theorem entry?_linkNext (s : Stack) (id next : Option EntryId) (j : EntryId) :
    Stack.entry? (s.linkNext id next) j =
      if id = some j then (s.entry? j).map fun e => { e with next := next } else s.entry? j :=
  entry?_relink s { s with head := next } rfl id _ j

theorem entry?_linkPrev (s : Stack) (id prev : Option EntryId) (j : EntryId) :
    Stack.entry? (s.linkPrev id prev) j =
      if id = some j then (s.entry? j).map fun e => { e with prev := prev } else s.entry? j :=
  entry?_relink s { s with tail := prev } rfl id _ j

theorem ends_linkNext {s : Stack} {id : Option EntryId} (next : Option EntryId)
    (h : ∀ i, id = some i → (s.entry? i).isSome) :
    (s.linkNext id next).head = (if id = none then next else s.head) ∧
      (s.linkNext id next).tail = s.tail := by
  unfold linkNext
  cases id with
  | none => exact ⟨rfl, rfl⟩
  | some i =>
    simp only [Option.filter, h i rfl, if_true]
    exact ⟨rfl, rfl⟩

theorem ends_linkPrev {s : Stack} {id : Option EntryId} (prev : Option EntryId)
    (h : ∀ i, id = some i → (s.entry? i).isSome) :
    (s.linkPrev id prev).head = s.head ∧
      (s.linkPrev id prev).tail = (if id = none then prev else s.tail) := by
  unfold linkPrev
  cases id with
  | none => exact ⟨rfl, rfl⟩
  | some i =>
    simp only [Option.filter, h i rfl, if_true]
    exact ⟨rfl, rfl⟩

theorem slots_linkNext {s : Stack} (h : s.entries.WellFormed) (id next : Option EntryId) :
    (s.linkNext id next).entries.WellFormed := by
  unfold linkNext
  split
  · exact h.modify _ _
  · exact h

theorem slots_linkPrev {s : Stack} (h : s.entries.WellFormed) (id prev : Option EntryId) :
    (s.linkPrev id prev).entries.WellFormed := by
  unfold linkPrev
  split
  · exact h.modify _ _
  · exact h

theorem isSome_entry?_linkNext (s : Stack) (id next : Option EntryId) (j : EntryId) :
    (Stack.entry? (s.linkNext id next) j).isSome = (s.entry? j).isSome := by
  rw [ entry?_linkNext]
  split <;> simp

theorem isSome_entry?_linkPrev (s : Stack) (id prev : Option EntryId) (j : EntryId) :
    (Stack.entry? (s.linkPrev id prev) j).isSome = (s.entry? j).isSome := by
  rw [ entry?_linkPrev]
  split <;> simp

/-! ## Closing a gap -/

theorem mem_of_prevOf {places : List Place} {i : EntryId} (h : prevOf places = some i) :
    i ∈ places.map Prod.fst := by
  obtain ⟨x, hx, rfl⟩ := Option.map_eq_some_iff.1 h
  exact List.mem_map_of_mem (List.mem_of_getLast? hx)

theorem mem_of_nextOf {places : List Place} {i : EntryId} (h : nextOf places = some i) :
    i ∈ places.map Prod.fst := by
  obtain ⟨x, hx, rfl⟩ := Option.map_eq_some_iff.1 h
  exact List.mem_map_of_mem (List.mem_of_head? hx)

theorem prevOf_append {left right : List Place} (h : right ≠ []) :
    prevOf (left ++ right) = prevOf right := by
  rw [prevOf, List.getLast?_append_of_ne_nil _ h, prevOf]

theorem nextOf_append {left right : List Place} (h : left ≠ []) :
    nextOf (left ++ right) = nextOf left := by
  rw [nextOf, List.head?_append_of_ne_nil _ h, nextOf]

/-- An element of two lists joined together is in one of them. -/
theorem split_append {before after left right : List Place} {x : Place}
    (h : left ++ right = before ++ x :: after) :
    (∃ rest, left = before ++ x :: rest ∧ after = rest ++ right) ∨
      ∃ rest, before = left ++ rest ∧ right = rest ++ x :: after := by
  rcases List.append_eq_append_iff.1 h with ⟨rest, hbefore, hright⟩ | ⟨rest, hleft, hrest⟩
  · exact .inr ⟨rest, hbefore, hright⟩
  · cases rest with
    | nil => exact .inr ⟨[], by simpa using hleft.symm, hrest.symm⟩
    | cons y rest =>
      obtain ⟨rfl, rfl⟩ : x = y ∧ after = rest ++ right := by simpa using hrest
      exact .inl ⟨rest, hleft, rfl⟩

/-- Two lists that are linked each for itself; the links across the gap between them may lead
anywhere. -/
structure Gap (s : Stack) (left right : List Place) : Prop where
  slots : s.entries.WellFormed
  head : left ≠ [] → s.head = nextOf left
  tail : right ≠ [] → s.tail = prevOf right
  left_entry : ∀ before x after, left = before ++ x :: after →
    ∃ next, s.entry? x.1 = some ⟨x.2, prevOf before, next⟩ ∧ (after ≠ [] → next = nextOf after)
  right_entry : ∀ before x after, right = before ++ x :: after →
    ∃ prev, s.entry? x.1 = some ⟨x.2, prev, nextOf after⟩ ∧ (before ≠ [] → prev = prevOf before)

theorem Gap.isSome_prev {s : Stack} {left right : List Place} (h : s.Gap left right) :
    ∀ i, prevOf left = some i → (s.entry? i).isSome := by
  intro i hi
  obtain ⟨x, hx, rfl⟩ := List.mem_map.1 (mem_of_prevOf hi)
  obtain ⟨before, after, hsplit⟩ := List.append_of_mem hx
  obtain ⟨next, hentry, -⟩ := h.left_entry before x after hsplit
  simp [hentry]

theorem Gap.isSome_next {s : Stack} {left right : List Place} (h : s.Gap left right) :
    ∀ i, nextOf right = some i → (s.entry? i).isSome := by
  intro i hi
  obtain ⟨x, hx, rfl⟩ := List.mem_map.1 (mem_of_nextOf hi)
  obtain ⟨before, after, hsplit⟩ := List.append_of_mem hx
  obtain ⟨prev, hentry, -⟩ := h.right_entry before x after hsplit
  simp [hentry]

theorem prevOf_ne {before after : List Place} {x : Place}
    (hnodup : ((before ++ x :: after).map Prod.fst).Nodup) (hafter : after ≠ []) :
    prevOf (before ++ x :: after) ≠ some x.1 := by
  intro hi
  rw [prevOf_append (by simp), ← List.singleton_append, prevOf_append hafter] at hi
  rw [List.map_append, List.map_cons, List.nodup_append, List.nodup_cons] at hnodup
  exact hnodup.2.1.1 (mem_of_prevOf hi)

theorem nextOf_ne {before after : List Place} {x : Place}
    (hnodup : ((before ++ x :: after).map Prod.fst).Nodup) (hbefore : before ≠ []) :
    nextOf (before ++ x :: after) ≠ some x.1 := by
  intro hi
  rw [nextOf_append hbefore] at hi
  rw [List.map_append, List.nodup_append] at hnodup
  exact hnodup.2.2 x.1 (mem_of_nextOf hi) x.1 (by simp) rfl

/-- Links the ends of a gap to what lies in it, and over it where nothing does. -/
def bridge (s : Stack) (left middle right : List Place) : Stack :=
  (s.linkNext (prevOf left) (nextOf (middle ++ right))).linkPrev (nextOf right)
    (prevOf (left ++ middle))

section Bridge

variable {s : Stack} {left middle right : List Place}

theorem isSome_entry?_bridge {i : EntryId} :
    (Stack.entry? (s.bridge left middle right) i).isSome = (s.entry? i).isSome := by
  rw [bridge, isSome_entry?_linkPrev, isSome_entry?_linkNext]

theorem entry?_bridge_left {i : EntryId} (hi : nextOf right ≠ some i) :
    Stack.entry? (s.bridge left middle right) i =
      if prevOf left = some i then
        (s.entry? i).map fun e => { e with next := nextOf (middle ++ right) }
      else s.entry? i := by
  rw [bridge, entry?_linkPrev, if_neg hi, entry?_linkNext]

theorem entry?_bridge_right {i : EntryId} (hi : prevOf left ≠ some i) :
    Stack.entry? (s.bridge left middle right) i =
      if nextOf right = some i then
        (s.entry? i).map fun e => { e with prev := prevOf (left ++ middle) }
      else s.entry? i := by
  rw [bridge, entry?_linkPrev, entry?_linkNext, if_neg hi]

theorem Gap.ends_bridge (h : s.Gap left right) :
    (s.bridge left middle right).head = nextOf (left ++ (middle ++ right)) ∧
      (s.bridge left middle right).tail = prevOf (left ++ (middle ++ right)) := by
  obtain ⟨hhead, htail⟩ := ends_linkNext (nextOf (middle ++ right)) h.isSome_prev
  obtain ⟨hhead', htail'⟩ := ends_linkPrev
    (s := s.linkNext (prevOf left) (nextOf (middle ++ right))) (prevOf (left ++ middle))
    fun i hi => by
      rw [isSome_entry?_linkNext]
      exact h.isSome_next i hi
  constructor
  · rw [bridge, hhead', hhead]
    cases left with
    | nil => simp
    | cons x left => rw [if_neg (by simp [prevOf]), h.head (by simp)]; rfl
  · rw [bridge, htail', htail]
    cases right with
    | nil => simp
    | cons x right =>
      rw [if_neg (by simp), h.tail (by simp), ← List.append_assoc, prevOf_append (by simp)]

theorem Gap.entry?_left (h : s.Gap left right) (hnodup : (left.map Prod.fst).Nodup)
    {before after : List Place} {x : Place} (hleft : left = before ++ x :: after)
    (hx : nextOf right ≠ some x.1) : Stack.entry? (s.bridge left middle right) x.1 =
      some ⟨x.2, prevOf before, nextOf (after ++ (middle ++ right))⟩ := by
  obtain ⟨next, hentry, hnext⟩ := h.left_entry before x after hleft
  rw [entry?_bridge_left hx, hentry]
  by_cases hnil : after = []
  · subst hnil
    rw [if_pos (by rw [hleft, prevOf_concat])]
    rfl
  · have hne : prevOf left ≠ some x.1 := by
      rw [hleft] at hnodup ⊢
      exact prevOf_ne hnodup hnil
    rw [if_neg hne, hnext hnil, nextOf_append hnil]

theorem Gap.entry?_right (h : s.Gap left right) (hnodup : (right.map Prod.fst).Nodup)
    {before after : List Place} {x : Place} (hright : right = before ++ x :: after)
    (hx : prevOf left ≠ some x.1) : Stack.entry? (s.bridge left middle right) x.1 =
      some ⟨x.2, prevOf (left ++ middle ++ before), nextOf after⟩ := by
  obtain ⟨prev, hentry, hprev⟩ := h.right_entry before x after hright
  rw [entry?_bridge_right hx, hentry]
  by_cases hnil : before = []
  · subst hnil
    rw [if_pos (by rw [hright]; rfl), List.append_nil]
    rfl
  · have hne : nextOf right ≠ some x.1 := by
      rw [hright] at hnodup ⊢
      exact nextOf_ne hnodup hnil
    rw [if_neg hne, hprev hnil, prevOf_append hnil]

end Bridge

/-- Bridging a gap, with one entry or none in it, gives one list. -/
theorem Gap.close {s : Stack} {left right : List Place} (h : s.Gap left right)
    (middle : Option Place) (hnodup : ((left ++ (middle.toList ++ right)).map Prod.fst).Nodup)
    (hmiddle : ∀ x, middle = some x → s.entry? x.1 = some ⟨x.2, prevOf left, nextOf right⟩)
    (hcovers : ∀ id, (s.entry? id).isSome → id ∈ (left ++ (middle.toList ++ right)).map Prod.fst) :
    (s.bridge left middle.toList right).Linked (left ++ (middle.toList ++ right)) := by
  have hparts := hnodup
  rw [List.map_append, List.map_append, List.nodup_append, List.nodup_append] at hparts
  obtain ⟨hnodupleft, ⟨-, hnodupright, hmr⟩, hlr⟩ := hparts
  have hright {x : Place} (hx : x ∈ left ++ middle.toList) : nextOf right ≠ some x.1 := by
    intro hi
    have hmem := mem_of_nextOf hi
    rcases List.mem_append.1 hx with hx | hx
    · exact hlr x.1 (List.mem_map_of_mem hx) x.1 (List.mem_append_right _ hmem) rfl
    · exact hmr x.1 (List.mem_map_of_mem hx) x.1 hmem rfl
  have hleft {x : Place} (hx : x ∈ middle.toList ++ right) : prevOf left ≠ some x.1 := by
    intro hi
    have hmem : x.1 ∈ middle.toList.map Prod.fst ++ right.map Prod.fst := by
      rw [← List.map_append]
      exact List.mem_map_of_mem hx
    exact hlr x.1 (mem_of_prevOf hi) x.1 hmem rfl
  refine ⟨slots_linkPrev (slots_linkNext h.slots _ _) _ _, hnodup, h.ends_bridge.1,
    h.ends_bridge.2, ?_, fun id hid => hcovers id (by rwa [isSome_entry?_bridge] at hid)⟩
  intro before x after hsplit
  rcases split_append hsplit with ⟨rest, hbefore, hafter⟩ | ⟨rest, hbefore, hrest⟩
  · rw [h.entry?_left hnodupleft hbefore (hright (by simp [hbefore])), hafter]
  rcases split_append hrest with ⟨rest', hmid, hafter⟩ | ⟨rest', hbefore', hafter⟩
  · obtain ⟨rfl, hmid', rfl⟩ : rest = [] ∧ middle = some x ∧ rest' = [] := by
      cases middle with
      | none => simp at hmid
      | some y =>
        cases rest with
        | nil => simpa [eq_comm] using hmid
        | cons z rest => simp at hmid
    rw [entry?_bridge_left (hright (by simp [hmid'])), if_neg (hleft (by simp [hmid'])),
      hmiddle x hmid', hbefore, hafter]
    simp
  · rw [h.entry?_right hnodupright hafter (hleft (by simp [hafter])), hbefore, hbefore',
      ← List.append_assoc]

namespace Linked

theorem entry?_mem {s : Stack} {places : List Place} (h : s.Linked places) {x : Place}
    (hx : x ∈ places) : ∃ e, s.entry? x.1 = some e ∧ e.node = x.2 := by
  obtain ⟨before, after, hsplit⟩ := List.append_of_mem hx
  exact ⟨_, h.entry before x after hsplit, rfl⟩

theorem node?_mem {s : Stack} {places : List Place} (h : s.Linked places) {x : Place}
    (hx : x ∈ places) : s.node? x.1 = some x.2 := by
  obtain ⟨e, he, hnode⟩ := h.entry?_mem hx
  rw [node?, he, Option.map_some, hnode]

/-- A list that is linked throughout is linked on both sides of any place, whatever becomes of
other entries and of the ends. -/
theorem gap {s s' : Stack} {places : List Place} (h : s.Linked places)
    (left middle right : List Place) (hplaces : places = left ++ (middle ++ right))
    (hslots : s'.entries.WellFormed)
    (hhead : s'.head = s.head) (htail : s'.tail = s.tail)
    (hentry : ∀ x ∈ left ++ right, s'.entry? x.1 = s.entry? x.1) : s'.Gap left right where
  slots := hslots
  head hne := by rw [hhead, h.head, hplaces, nextOf_append hne]
  tail hne := by rw [htail, h.tail, hplaces, ← List.append_assoc, prevOf_append hne]
  left_entry before x after hleft := by
    refine ⟨nextOf (after ++ (middle ++ right)), ?_, fun hne => nextOf_append hne⟩
    rw [hentry x (by simp [hleft]), h.entry before x (after ++ (middle ++ right))]
    rw [hplaces, hleft, List.append_assoc, List.cons_append]
  right_entry before x after hright := by
    refine ⟨prevOf (left ++ middle ++ before), ?_, fun hne => prevOf_append hne⟩
    rw [hentry x (by simp [hright]), h.entry (left ++ middle ++ before) x after]
    rw [hplaces, hright, List.append_assoc, List.append_assoc]

theorem unlink {s : Stack} {left right : List Place} {x : Place}
    (h : s.Linked (left ++ x :: right)) : (s.unlink x.1).Linked (left ++ right) := by
  have hget := h.entry left x right rfl
  obtain ⟨s', hs'⟩ : ∃ s', s' = { s with entries := s.entries.release x.1.index } := ⟨_, rfl⟩
  have hentry (j : EntryId) : s'.entry? j = if x.1 = j then none else s.entry? j := by
    rw [hs', entry?, Slots.get?_release]
    by_cases heq : x.1 = j
    · rw [if_pos (congrArg EntryId.index heq), if_pos heq]
    · rw [if_neg heq, if_neg fun hindex => heq (congrArg EntryId.mk hindex), entry?]
  have hperm : ((left ++ x :: right).map Prod.fst).Perm (x.1 :: (left ++ right).map Prod.fst) :=
    List.perm_middle.map Prod.fst
  obtain ⟨hnot, hnodup⟩ := List.nodup_cons.1 (hperm.nodup_iff.1 h.nodup)
  have hgap : s'.Gap left right := by
    refine h.gap left [x] right rfl (hs' ▸ h.slots.release _) (by rw [hs']) (by rw [hs']) ?_
    intro y hy
    rw [hentry, if_neg]
    exact fun heq => hnot (heq ▸ List.mem_map_of_mem hy)
  have hclose := hgap.close none hnodup (by simp) fun id hid => by
    rw [hentry] at hid
    by_cases heq : x.1 = id
    · rw [if_pos heq] at hid
      cases hid
    · rw [if_neg heq] at hid
      have hmem := hperm.mem_iff.1 (h.covers id hid)
      exact (List.mem_cons.1 hmem).resolve_left (Ne.symm heq)
  rw [Option.toList_none, bridge, List.nil_append, List.append_nil, hs'] at hclose
  rw [Stack.unlink, hget]
  exact hclose

theorem link {s : Stack} {left right : List Place} (h : s.Linked (left ++ right)) (n : NodeId) :
    ∃ id, (s.link n (prevOf left) (nextOf right)).Linked (left ++ (id, n) :: right) := by
  obtain ⟨entries, index, halloc⟩ : ∃ entries index,
      s.entries.alloc ⟨n, prevOf left, nextOf right⟩ = (entries, index) := ⟨_, _, rfl⟩
  have hget := h.slots.get?_alloc ⟨n, prevOf left, nextOf right⟩
  have hunused := h.slots.get?_alloc_index ⟨n, prevOf left, nextOf right⟩
  have hslots := h.slots.alloc ⟨n, prevOf left, nextOf right⟩
  simp only [halloc] at hget hunused hslots
  obtain ⟨s', hs'⟩ : ∃ s', s' = { s with entries := entries } := ⟨_, rfl⟩
  have hentry (j : EntryId) : s'.entry? j =
      if (⟨index⟩ : EntryId) = j then some ⟨n, prevOf left, nextOf right⟩ else s.entry? j := by
    have hiff : index = j.index ↔ (⟨index⟩ : EntryId) = j :=
      ⟨congrArg EntryId.mk, congrArg EntryId.index⟩
    rw [hs', entry?, hget]
    simp only [hiff, entry?]
  have hfresh : ∀ x ∈ left ++ right, (⟨index⟩ : EntryId) ≠ x.1 := by
    intro x hx heq
    obtain ⟨e, he, -⟩ := h.entry?_mem hx
    rw [← heq, entry?, hunused] at he
    cases he
  have hgap : s'.Gap left right := by
    refine h.gap left [] right rfl (hs' ▸ hslots) (by rw [hs']) (by rw [hs']) fun x hx => ?_
    rw [hentry, if_neg (hfresh x hx)]
  have hperm : ((left ++ (⟨index⟩, n) :: right).map Prod.fst).Perm
      (⟨index⟩ :: (left ++ right).map Prod.fst) := List.perm_middle.map Prod.fst
  have hclose := hgap.close (some (⟨index⟩, n)) ?_ ?_ ?_
  · refine ⟨⟨index⟩, ?_⟩
    rw [hs', bridge] at hclose
    simp only [Stack.link, halloc]
    simpa using hclose
  · rw [Option.toList_some, List.singleton_append, hperm.nodup_iff, List.nodup_cons]
    refine ⟨fun hmem => ?_, h.nodup⟩
    obtain ⟨x, hx, heq⟩ := List.mem_map.1 hmem
    exact hfresh x hx heq.symm
  · intro x hx
    obtain rfl : ((⟨index⟩, n) : Place) = x := by simpa using hx
    rw [hentry, if_pos rfl]
  · intro id hid
    rw [Option.toList_some, List.singleton_append, hperm.mem_iff, List.mem_cons]
    rw [hentry] at hid
    by_cases heq : (⟨index⟩ : EntryId) = id
    · exact .inl heq.symm
    · rw [if_neg heq] at hid
      exact .inr (h.covers id hid)

/-! ## Walks -/

theorem length_le {s : Stack} {places : List Place} (h : s.Linked places) :
    places.length ≤ s.entries.size := by
  have hindex : ((places.map Prod.fst).map EntryId.index).Nodup :=
    List.Nodup.map (fun _ _ heq => congrArg EntryId.mk heq) h.nodup
  have hlive : ∀ i ∈ (places.map Prod.fst).map EntryId.index, (s.entries.get? i).isSome := by
    intro i hi
    obtain ⟨id, hid, rfl⟩ := List.mem_map.1 hi
    obtain ⟨x, hx, rfl⟩ := List.mem_map.1 hid
    obtain ⟨e, he, -⟩ := h.entry?_mem hx
    exact Option.isSome_iff_exists.2 ⟨e, he⟩
  have hle := Slots.length_le_size hindex hlive
  rwa [List.length_map, List.length_map] at hle

theorem follow_next {s : Stack} {before after : List Place} (h : s.Linked (before ++ after))
    {fuel : Nat} (hfuel : after.length ≤ fuel) :
    s.follow Entry.next fuel (nextOf after) = after.map Prod.fst := by
  induction after generalizing before fuel with
  | nil => cases fuel <;> rfl
  | cons x after ih =>
    cases fuel with
    | zero => simp at hfuel
    | succ fuel =>
      have hsplit : s.Linked (before ++ [x] ++ after) := by simpa using h
      have hnext := ih hsplit (by simpa using hfuel)
      rw [nextOf_cons, follow, h.entry before x after rfl, Option.bind_some, hnext, List.map_cons]

theorem follow_prev {s : Stack} {before after : List Place} (h : s.Linked (before ++ after))
    {fuel : Nat} (hfuel : before.length ≤ fuel) :
    s.follow Entry.prev fuel (prevOf before) = (before.map Prod.fst).reverse := by
  induction before using List.reverseRecOn generalizing after fuel with
  | nil => cases fuel <;> rfl
  | append_singleton before x ih =>
    cases fuel with
    | zero => simp at hfuel
    | succ fuel =>
      have hsplit : before ++ [x] ++ after = before ++ x :: after := by simp
      have hrest : s.Linked (before ++ x :: after) := hsplit ▸ h
      have hprev := ih hrest (by simpa using hfuel)
      rw [prevOf_concat, follow, h.entry before x after hsplit, Option.bind_some, hprev,
        List.map_append, List.map_singleton, List.reverse_concat]

theorem upward_eq {s : Stack} {places : List Place} (h : s.Linked places) :
    s.upward = places.map Prod.fst := by
  have hle := h.length_le
  have hall : s.Linked ([] ++ places) := h
  rw [upward, h.head]
  exact hall.follow_next (by omega)

theorem downward_eq {s : Stack} {places : List Place} (h : s.Linked places) :
    s.downward = (places.map Prod.fst).reverse := by
  have hle := h.length_le
  have hall : s.Linked (places ++ []) := by rwa [List.append_nil]
  rw [downward, h.tail]
  exact hall.follow_prev (by omega)

theorem filterMap_node? {s : Stack} {places : List Place} (h : s.Linked places)
    {part : List Place} (hpart : part ⊆ places) :
    (part.map Prod.fst).filterMap s.node? = part.map Prod.snd := by
  rw [List.filterMap_map]
  induction part with
  | nil => rfl
  | cons x part ih =>
    have hx : (s.node? ∘ Prod.fst) x = some x.2 := h.node?_mem (hpart List.mem_cons_self)
    rw [List.filterMap_cons_some hx, ih (List.subset_of_cons_subset hpart), List.map_cons]

theorem toList_eq {s : Stack} {places : List Place} (h : s.Linked places) :
    s.toList = places.map Prod.snd := by
  rw [toList, h.upward_eq, h.filterMap_node? (List.Subset.refl places)]

/-- The slot of a leaf that has one entry. -/
theorem find?_eq {s : Stack} {left right : List Place} {x : Place}
    (h : s.Linked (left ++ x :: right)) (hleft : x.2 ∉ left.map Prod.snd) :
    s.find? x.2 = some x.1 := by
  rw [Stack.find?, h.upward_eq, List.find?_eq_some_iff_append]
  refine ⟨by rw [h.node?_mem (by simp), beq_self_eq_true], left.map Prod.fst, right.map Prod.fst,
    by simp, fun id hid => ?_⟩
  obtain ⟨y, hy, rfl⟩ := List.mem_map.1 hid
  have hne : y.2 ≠ x.2 := fun heq => hleft (List.mem_map.2 ⟨y, hy, heq⟩)
  rw [h.node?_mem (by simp [hy])]
  simp [hne]

theorem find?_eq_none {s : Stack} {places : List Place} (h : s.Linked places) {n : NodeId}
    (hn : n ∉ places.map Prod.snd) : s.find? n = none := by
  rw [Stack.find?, h.upward_eq, List.find?_eq_none]
  intro id hid
  obtain ⟨y, hy, rfl⟩ := List.mem_map.1 hid
  have hne : y.2 ≠ n := fun heq => hn (List.mem_map.2 ⟨y, hy, heq⟩)
  rw [h.node?_mem hy]
  simp [hne]

end Linked

end Tiling.Stack
