import Tiling.Proofs.Stack.Order
import Tiling.Stack.Restack
/-!
# Placement

Where restacking puts a leaf.  The scans for an anchor run over a list that may hold the leaf
itself, out of its level; the place they find depends on the other leaves alone.
-/

namespace Tiling.Stack

/-- The place that a leaf takes among the others: promoted, directly below the first leaf of a
higher level; else directly above the last leaf of a lower level. -/
inductive Settles (level : NodeId → Nat) (n : NodeId) :
    Bool → List NodeId → List NodeId → Prop where
  | front {left right : List NodeId} (hleft : ∀ z ∈ left, level z ≤ level n)
      (hright : ∀ z ∈ right.head?, level n < level z) :
      Settles level n true (left ++ right) (left ++ n :: right)
  | back {left right : List NodeId} (hleft : ∀ z ∈ left.getLast?, level z < level n)
      (hright : ∀ z ∈ right, level n ≤ level z) :
      Settles level n false (left ++ right) (left ++ n :: right)

/-- A leaf without others. -/
theorem Settles.alone (level : NodeId → Nat) (n : NodeId) (promote : Bool) :
    Settles level n promote [] [n] := by
  cases promote with
  | true =>
    have hfront : Settles level n true ([] ++ []) ([] ++ n :: []) := .front (by simp) (by simp)
    exact hfront
  | false =>
    have hback : Settles level n false ([] ++ []) ([] ++ n :: []) := .back (by simp) (by simp)
    exact hback

theorem Settles.perm {level : NodeId → Nat} {n : NodeId} {promote : Bool} {others l : List NodeId}
    (h : Settles level n promote others l) : l.Perm (n :: others) := by
  cases h with
  | front => exact List.perm_middle
  | back => exact List.perm_middle

/-- A leaf that settles leaves the others in their order. -/
theorem Settles.filter_eq {level : NodeId → Nat} {n : NodeId} {promote : Bool}
    {others l : List NodeId} (h : Settles level n promote others l) {p : NodeId → Bool}
    (hp : p n = false) : l.filter p = others.filter p := by
  cases h with
  | front => simp [hp]
  | back => simp [hp]

/-- Taking out a third leaf leaves two leaves in their order. -/
theorem pair_sublist_erase_iff {l : List NodeId} {x a n : NodeId} (hx : x ≠ n) (ha : a ≠ n) :
    [x, a].Sublist (l.erase n) ↔ [x, a].Sublist l := by
  refine ⟨fun h => h.trans List.erase_sublist, fun h => ?_⟩
  have herase := h.erase n
  rwa [List.erase_of_not_mem (by simp [hx.symm, ha.symm])] at herase

/-! ## The anchors -/

namespace Linked

theorem levelAt_mem {s : Stack} {places : List Place} (h : s.Linked places) (t : Tree) {x : Place}
    (hx : x ∈ places) : s.levelAt t x.1 = t.level x.2 := by
  rw [levelAt, h.node?_mem hx]
  rfl

theorem find?_map_fst {part : List Place} {p : EntryId → Bool} {q : NodeId → Bool}
    (h : ∀ x ∈ part, p x.1 = q x.2) :
    (part.map Prod.fst).find? p = (part.find? fun x => q x.2).map Prod.fst := by
  induction part with
  | nil => rfl
  | cons x part ih =>
    have hx := h x List.mem_cons_self
    have hrest := ih fun y hy => h y (List.mem_cons_of_mem x hy)
    rw [List.map_cons, List.find?_cons, List.find?_cons, hx, hrest]
    cases q x.2 <;> rfl

theorem find?_upward {s : Stack} {places : List Place} (h : s.Linked places) (t : Tree)
    (p : Nat → Bool) : s.upward.find? (fun id => p (s.levelAt t id)) =
      (places.find? fun x => p (t.level x.2)).map Prod.fst := by
  rw [h.upward_eq]
  exact find?_map_fst (q := fun m => p (t.level m)) fun x hx => by rw [h.levelAt_mem t hx]

theorem find?_downward {s : Stack} {places : List Place} (h : s.Linked places) (t : Tree)
    (p : Nat → Bool) : s.downward.find? (fun id => p (s.levelAt t id)) =
      (places.reverse.find? fun x => p (t.level x.2)).map Prod.fst := by
  rw [h.downward_eq, ← List.map_reverse]
  exact find?_map_fst (q := fun m => p (t.level m)) fun x hx => by
    rw [h.levelAt_mem t (List.mem_reverse.1 hx)]

end Linked

/-- Where a scan stops: at what was found, else at the last entry, and from the own entry of the
leaf it goes back. -/
def scan (s : Stack) (back : Entry → Option EntryId) (n : NodeId) (found last : Option EntryId) :
    Option EntryId :=
  (found.or last).bind fun id =>
    if s.node? id == some n then (s.entry? id).bind back else some id

section Scan

variable {s : Stack} {back : Entry → Option EntryId} {n : NodeId} {places before : List Place}
  {x : Place}

theorem scan_of_ne {found last : Option EntryId} {id : EntryId} {m : NodeId}
    (hor : found.or last = some id) (hnode : s.node? id = some m) (hne : m ≠ n) :
    s.scan back n found last = some id := by
  rw [scan, hor, Option.bind_some, hnode, if_neg]
  simpa using hne

theorem erase_map_snd (hnodup : (places.map Prod.snd).Nodup) (n : NodeId) :
    (places.map Prod.snd).erase n = (places.filter (·.2 != n)).map Prod.snd := by
  rw [hnodup.erase_eq_filter, List.filter_map]
  rfl

/-- Nothing is found: the scan stops at the last other leaf. -/
theorem scan_last (hnodup : ((before ++ [x]).map Prod.snd).Nodup)
    (hnode : ∀ y ∈ before ++ [x], s.node? y.1 = some y.2)
    (hback : (s.entry? x.1).bind back = prevOf before) :
    (∃ a m left, s.scan back n none (prevOf (before ++ [x])) = some a ∧ s.node? a = some m ∧
      ((before ++ [x]).map Prod.snd).erase n = left ++ [m]) ∨
    (s.scan back n none (prevOf (before ++ [x])) = none ∧
      ((before ++ [x]).map Prod.snd).erase n = []) := by
  have hlast := hnode x (by simp)
  by_cases heq : x.2 = n
  · have hown : s.scan back n none (prevOf (before ++ [x])) = prevOf before := by
      rw [scan, prevOf_concat, Option.none_or, Option.bind_some, hlast, heq, ← hback]
      simp
    have hnot : n ∉ before.map Prod.snd := by
      rw [List.map_append, List.nodup_append] at hnodup
      exact fun hmem => hnodup.2.2 n hmem x.2 (by simp) heq.symm
    have herase : ((before ++ [x]).map Prod.snd).erase n = before.map Prod.snd := by
      rw [List.map_append, List.erase_append_right _ hnot, ← heq]
      simp
    rw [hown, herase]
    cases before using List.reverseRecOn with
    | nil => exact .inr ⟨rfl, rfl⟩
    | append_singleton before y =>
      exact .inl ⟨y.1, y.2, before.map Prod.snd, prevOf_concat before y, hnode y (by simp),
        by simp⟩
  · refine .inl ⟨x.1, x.2, (before.filter (·.2 != n)).map Prod.snd,
      scan_of_ne (by rw [prevOf_concat, Option.none_or]) hlast heq, hlast, ?_⟩
    rw [erase_map_snd hnodup, List.filter_append, List.map_append]
    simp [heq]

/-- The scan stops at the first leaf that passes the test, or at the last other leaf when there
is none. -/
theorem scan_cases (hnodup : (places.map Prod.snd).Nodup)
    (hnode : ∀ y ∈ places, s.node? y.1 = some y.2)
    (hback : ∀ before x, places = before ++ [x] → (s.entry? x.1).bind back = prevOf before)
    {p : NodeId → Bool} (hp : p n = false) {anchor : Option EntryId}
    (hanchor : anchor =
      s.scan back n ((places.find? fun x => p x.2).map Prod.fst) (prevOf places)) :
    (∃ a m left right, anchor = some a ∧ s.node? a = some m ∧
      (places.map Prod.snd).erase n = left ++ m :: right ∧ (∀ z ∈ left, p z = false) ∧
      p m = true) ∨
    (∃ a m left, anchor = some a ∧ s.node? a = some m ∧
      (places.map Prod.snd).erase n = left ++ [m] ∧ ∀ z ∈ places.map Prod.snd, p z = false) ∨
    (anchor = none ∧ (places.map Prod.snd).erase n = []) := by
  subst hanchor
  cases hfind : places.find? fun x => p x.2 with
  | some x =>
    obtain ⟨hx, before, after, rfl, hbefore⟩ := List.find?_eq_some_iff_append.1 hfind
    have hne : x.2 ≠ n := fun heq => by simp [heq, hp] at hx
    have hplace := hnode x (by simp)
    refine .inl ⟨x.1, x.2, (before.filter (·.2 != n)).map Prod.snd,
      (after.filter (·.2 != n)).map Prod.snd, scan_of_ne rfl hplace hne, hplace, ?_, ?_, hx⟩
    · rw [erase_map_snd hnodup, List.filter_append, List.filter_cons_of_pos (by simpa using hne),
        List.map_append, List.map_cons]
    · intro z hz
      obtain ⟨y, hy, rfl⟩ := List.mem_map.1 hz
      simpa using hbefore y (List.mem_filter.1 hy).1
  | none =>
    have hall : ∀ z ∈ places.map Prod.snd, p z = false := by
      intro z hz
      obtain ⟨y, hy, rfl⟩ := List.mem_map.1 hz
      simpa using List.find?_eq_none.1 hfind y hy
    cases places using List.reverseRecOn with
    | nil => exact .inr (.inr ⟨rfl, rfl⟩)
    | append_singleton before x =>
      rcases scan_last (n := n) hnodup hnode (hback before x rfl) with
        ⟨a, m, left, ha, hm, herase⟩ | hnone
      · exact .inr (.inl ⟨a, m, left, ha, hm, herase, hall⟩)
      · exact .inr (.inr hnone)

end Scan

namespace Holds

/-- The anchor for a promoted leaf is the first other leaf of a higher level, or the last other
leaf when there is none. -/
theorem limitAbove_cases {s : Stack} {l : List NodeId} (h : s.Holds l) (t : Tree) (n : NodeId) :
    (∃ a m left right, s.limitAbove t n = some a ∧ s.node? a = some m ∧
      l.erase n = left ++ m :: right ∧ (∀ z ∈ left, t.level z ≤ t.level n) ∧
      t.level n < t.level m) ∨
    (∃ a m left, s.limitAbove t n = some a ∧ s.node? a = some m ∧ l.erase n = left ++ [m] ∧
      ∀ z ∈ l, t.level z ≤ t.level n) ∨
    (s.limitAbove t n = none ∧ l.erase n = []) := by
  obtain ⟨hnodup, places, hlinked, rfl⟩ := h
  have hanchor : s.limitAbove t n = s.scan Entry.prev n
      ((places.find? fun x => decide (t.level n < t.level x.2)).map Prod.fst) (prevOf places) := by
    rw [← hlinked.find?_upward t fun level => decide (t.level n < level), ← hlinked.tail]
    rfl
  have hback : ∀ before x, places = before ++ [x] →
      (s.entry? x.1).bind Entry.prev = prevOf before := by
    rintro before x rfl
    rw [hlinked.entry before x [] rfl]
    rfl
  simpa using scan_cases hnodup (fun y hy => hlinked.node?_mem hy) hback
    (p := fun m => decide (t.level n < t.level m)) (by simp) hanchor

/-- The anchor for a leaf that is not promoted is the last other leaf of a lower level, or the
first other leaf when there is none. -/
theorem limitBelow_cases {s : Stack} {l : List NodeId} (h : s.Holds l) (t : Tree) (n : NodeId) :
    (∃ a m left right, s.limitBelow t n = some a ∧ s.node? a = some m ∧
      l.erase n = left ++ m :: right ∧ (∀ z ∈ right, t.level n ≤ t.level z) ∧
      t.level m < t.level n) ∨
    (∃ a m right, s.limitBelow t n = some a ∧ s.node? a = some m ∧ l.erase n = m :: right ∧
      ∀ z ∈ l, t.level n ≤ t.level z) ∨
    (s.limitBelow t n = none ∧ l.erase n = []) := by
  obtain ⟨hnodup, places, hlinked, rfl⟩ := h
  -- from the top the scan meets the reversed list
  have hreverse : (places.reverse.map Prod.snd).Nodup := by
    rwa [List.map_reverse, List.nodup_reverse]
  have hlast : prevOf places.reverse = nextOf places := by
    rw [prevOf, List.getLast?_reverse, nextOf]
  have hanchor : s.limitBelow t n = s.scan Entry.next n
      ((places.reverse.find? fun x => decide (t.level x.2 < t.level n)).map Prod.fst)
      (prevOf places.reverse) := by
    rw [← hlinked.find?_downward t fun level => decide (level < t.level n), hlast, ← hlinked.head]
    rfl
  have hback : ∀ before x, places.reverse = before ++ [x] →
      (s.entry? x.1).bind Entry.next = prevOf before := by
    intro before x hsplit
    have hplaces : places = x :: before.reverse := by
      rw [← List.reverse_reverse places, hsplit, List.reverse_concat]
    rw [hlinked.entry [] x before.reverse hplaces, Option.bind_some, nextOf, List.head?_reverse]
    rfl
  have herase : (places.map Prod.snd).erase n =
      ((places.reverse.map Prod.snd).erase n).reverse := by
    rw [erase_map_snd hnodup, erase_map_snd hreverse, List.filter_reverse, List.map_reverse,
      List.reverse_reverse]
  rcases scan_cases hreverse (fun y hy => hlinked.node?_mem (List.mem_reverse.1 hy)) hback
    (p := fun m => decide (t.level m < t.level n)) (by simp) hanchor with
    ⟨a, m, left, right, ha, hm, hsplit, hleft, hlt⟩ | ⟨a, m, left, ha, hm, hsplit, hall⟩ |
      ⟨ha, hsplit⟩
  · refine .inl ⟨a, m, right.reverse, left.reverse, ha, hm, ?_, ?_, by simpa using hlt⟩
    · rw [herase, hsplit]
      simp
    · simpa using hleft
  · refine .inr (.inl ⟨a, m, left.reverse, ha, hm, ?_, by simpa using hall⟩)
    rw [herase, hsplit]
    simp
  · exact .inr (.inr ⟨ha, by rw [herase, hsplit, List.reverse_nil]⟩)

end Holds

/-! ## Restacking -/

/-- The anchor that a placement starts from. -/
def anchor? (s : Stack) (t : Tree) (promote : Bool) (n : NodeId) : Option EntryId :=
  if promote then s.limitAbove t n else s.limitBelow t n

theorem destination?_of_anchor {s : Stack} {t : Tree} {promote : Bool} {n m : NodeId} {a : EntryId}
    {other : Client} (hanchor : s.anchor? t promote n = some a) (hnode : s.node? a = some m)
    (hclient : t.client? m = some other) :
    s.destination? t promote n = some (a, other.window, relationTo t promote n m) := by
  cases promote <;> simp [anchor?] at hanchor <;>
    simp [destination?, hanchor, hnode, Tree.window?, hclient]

theorem destination?_of_none {s : Stack} {t : Tree} {promote : Bool} {n : NodeId}
    (hanchor : s.anchor? t promote n = none) : s.destination? t promote n = none := by
  cases promote <;> simp [anchor?] at hanchor <;> simp [destination?, hanchor]

namespace Holds

section RestackLeaf

variable {s : Stack} {l : List NodeId} {t : Tree} {n : NodeId} {client : Client} {autoRaise : Bool}

theorem restackLeaf_anchor (h : s.Holds l) (promote : Bool) (hclient : t.client? n = some client)
    (hmoves : client.state = .floating → autoRaise = true) {a : EntryId} {m : NodeId}
    {left right : List NodeId} (hanchor : s.anchor? t promote n = some a)
    (hnode : s.node? a = some m) (hlive : (t.client? m).isSome)
    (hsplit : l.erase n = left ++ m :: right) :
    (Stack.restackLeaf t promote autoRaise s n).1.Holds
      (match relationTo t promote n m with
        | .above => left ++ m :: n :: right
        | .below => left ++ n :: m :: right) := by
  have hstays : (client.state == .floating && !autoRaise) = false := by
    cases hstate : client.state <;> simp [hstate] at hmoves ⊢
    exact hmoves
  have hmem : m ∈ l.erase n := by simp [hsplit]
  have hempty : s.isEmpty = false := by
    rw [h.isEmpty_eq]
    simpa using List.ne_nil_of_mem (List.mem_of_mem_erase hmem)
  have hne : m ≠ n := ne_of_mem_of_not_mem hmem h.1.not_mem_erase
  obtain ⟨other, hother⟩ := Option.isSome_iff_exists.1 hlive
  have hdest := destination?_of_anchor hanchor hnode hother
  simp only [Stack.restackLeaf, hclient, hstays, hempty, hdest]
  cases relationTo t promote n m with
  | above => exact h.insertAfter hnode hne hsplit
  | below => exact h.insertBefore hnode hne hsplit

theorem restackLeaf_alone (h : s.Holds l) (promote : Bool) (hclient : t.client? n = some client)
    (hmoves : client.state = .floating → autoRaise = true)
    (hanchor : s.anchor? t promote n = none) (hothers : l.erase n = []) :
    (Stack.restackLeaf t promote autoRaise s n).1.Holds [n] := by
  have hstays : (client.state == .floating && !autoRaise) = false := by
    cases hstate : client.state <;> simp [hstate] at hmoves ⊢
    exact hmoves
  have hdest := destination?_of_none hanchor
  rcases List.erase_eq_nil_iff.1 hothers with rfl | rfl
  · simp only [Stack.restackLeaf, hclient, hstays, h.isEmpty_eq, List.isEmpty_nil]
    exact Holds.singleton n
  · simpa [Stack.restackLeaf, hclient, hstays, h.isEmpty_eq, hdest] using h

theorem mem_of_erase_eq {m : NodeId} {left right : List NodeId}
    (hsplit : l.erase n = left ++ m :: right) : m ∈ l := by
  have hothers : m ∈ l.erase n := by simp [hsplit]
  exact List.mem_of_mem_erase hothers

/-- A promoted leaf settles at the front of its level. -/
theorem restackLeaf_front (h : s.Holds l) (hclient : t.client? n = some client)
    (hmoves : client.state = .floating → autoRaise = true)
    (hlive : ∀ m ∈ l, (t.client? m).isSome) :
    ∃ l', (Stack.restackLeaf t true autoRaise s n).1.Holds l' ∧
      Settles t.level n true (l.erase n) l' := by
  rcases h.limitAbove_cases t n with ⟨a, m, left, right, ha, hnode, hsplit, hleft, hlt⟩ |
    ⟨a, m, left, ha, hnode, hsplit, hall⟩ | ⟨ha, hothers⟩
  · have hplaced :=
      h.restackLeaf_anchor true hclient hmoves ha hnode (hlive m (mem_of_erase_eq hsplit)) hsplit
    have hrelation : relationTo t true n m = .below := by simp [relationTo, hlt]
    rw [hrelation] at hplaced
    rw [hsplit]
    exact ⟨_, hplaced, .front hleft (by simpa using hlt)⟩
  · have hplaced :=
      h.restackLeaf_anchor true hclient hmoves ha hnode (hlive m (mem_of_erase_eq hsplit)) hsplit
    have hle := hall m (mem_of_erase_eq hsplit)
    have hrelation : relationTo t true n m = .above := by
      simp only [relationTo]
      rw [if_neg (by simp; omega)]
    rw [hrelation] at hplaced
    rw [hsplit]
    refine ⟨_, hplaced, ?_⟩
    have hfront : Settles t.level n true ((left ++ [m]) ++ []) ((left ++ [m]) ++ n :: []) :=
      .front (fun z hz => hall z (List.mem_of_mem_erase (hsplit ▸ hz))) (by simp)
    simpa using hfront
  · rw [hothers]
    exact ⟨[n], h.restackLeaf_alone true hclient hmoves ha hothers, .alone t.level n true⟩

/-- A leaf that is not promoted settles at the back of its level. -/
theorem restackLeaf_back (h : s.Holds l) (hclient : t.client? n = some client)
    (hmoves : client.state = .floating → autoRaise = true)
    (hlive : ∀ m ∈ l, (t.client? m).isSome) :
    ∃ l', (Stack.restackLeaf t false autoRaise s n).1.Holds l' ∧
      Settles t.level n false (l.erase n) l' := by
  rcases h.limitBelow_cases t n with ⟨a, m, left, right, ha, hnode, hsplit, hright, hlt⟩ |
    ⟨a, m, right, ha, hnode, hsplit, hall⟩ | ⟨ha, hothers⟩
  · have hplaced :=
      h.restackLeaf_anchor false hclient hmoves ha hnode (hlive m (mem_of_erase_eq hsplit)) hsplit
    have hrelation : relationTo t false n m = .above := by
      simp only [relationTo]
      rw [if_neg (by simp; omega)]
    rw [hrelation] at hplaced
    rw [hsplit]
    refine ⟨_, hplaced, ?_⟩
    have hback : Settles t.level n false ((left ++ [m]) ++ right) ((left ++ [m]) ++ n :: right) :=
      .back (by simpa using hlt) hright
    simpa using hback
  · have hfirst : l.erase n = [] ++ m :: right := hsplit
    have hplaced :=
      h.restackLeaf_anchor false hclient hmoves ha hnode (hlive m (mem_of_erase_eq hfirst)) hfirst
    have hle := hall m (mem_of_erase_eq hfirst)
    have hrelation : relationTo t false n m = .below := by
      simp only [relationTo]
      rw [if_pos (by simp; omega)]
    rw [hrelation] at hplaced
    rw [hsplit]
    refine ⟨_, hplaced, ?_⟩
    have hback : Settles t.level n false ([] ++ m :: right) ([] ++ n :: m :: right) :=
      .back (by simp) fun z hz => hall z (List.mem_of_mem_erase (hsplit ▸ hz))
    exact hback
  · rw [hothers]
    exact ⟨[n], h.restackLeaf_alone false hclient hmoves ha hothers, .alone t.level n false⟩

/-- A leaf that restacking moves settles among the others. -/
theorem restackLeaf (h : s.Holds l) (promote : Bool) (hclient : t.client? n = some client)
    (hmoves : client.state = .floating → autoRaise = true)
    (hlive : ∀ m ∈ l, (t.client? m).isSome) :
    ∃ l', (Stack.restackLeaf t promote autoRaise s n).1.Holds l' ∧
      Settles t.level n promote (l.erase n) l' := by
  cases promote with
  | true => exact h.restackLeaf_front hclient hmoves hlive
  | false => exact h.restackLeaf_back hclient hmoves hlive

end RestackLeaf

end Holds

/-- A floating leaf stays where it is while raising is off. -/
theorem restackLeaf_floating {t : Tree} {n : NodeId} {client : Client} (s : Stack) (promote : Bool)
    (hclient : t.client? n = some client) (hstate : client.state = .floating) :
    restackLeaf t promote false s n = (s, []) := by
  simp [restackLeaf, hclient, hstate]

/-- Restacking a leaf places it, publishes the list and raises the feedback windows. -/
theorem restack_leaf {t : Tree} {n : NodeId} (hleaf : t.leaves (some n) = [n]) (s : Stack)
    (root : Option NodeId) (promote autoRaise : Bool) :
    s.restack t root n promote autoRaise =
      ((restackLeaf t promote autoRaise s n).1, (restackLeaf t promote autoRaise s n).2 ++
        .request (.clientList ((restackLeaf t promote autoRaise s n).1.windows t)) ::
          (restackLeaf t promote autoRaise s n).1.raiseFeedback t root) := by
  simp only [restack, hleaf, restackLeaves, List.append_nil]

/-- What restacking one leaf does to the order. -/
inductive Moves (t : Tree) (autoRaise : Bool) (n : NodeId) (promote : Bool) :
    List NodeId → List NodeId → Prop where
  | stays {l : List NodeId} (hfloating : (t.client? n).map Client.state = some .floating)
      (hoff : autoRaise = false) : Moves t autoRaise n promote l l
  | settles {l l' : List NodeId}
      (hmoves : (t.client? n).map Client.state = some .floating → autoRaise = true)
      (hsettles : Settles t.level n promote (l.erase n) l') : Moves t autoRaise n promote l l'

theorem Holds.restack {s : Stack} {l : List NodeId} (h : s.Holds l) {t : Tree} {n : NodeId}
    {client : Client} (hclient : t.client? n = some client) (hleaf : t.leaves (some n) = [n])
    (hlive : ∀ m ∈ l, (t.client? m).isSome) (root : Option NodeId) (promote autoRaise : Bool) :
    ∃ l', (s.restack t root n promote autoRaise).1.Holds l' ∧ Moves t autoRaise n promote l l' := by
  have hstate : (t.client? n).map Client.state = some .floating ↔ client.state = .floating := by
    simp [hclient]
  rw [restack_leaf hleaf]
  by_cases hstays : client.state = .floating ∧ autoRaise = false
  · obtain ⟨hfloating, rfl⟩ := hstays
    rw [restackLeaf_floating s promote hclient hfloating]
    exact ⟨l, h, .stays (hstate.2 hfloating) rfl⟩
  · have hmoves : client.state = .floating → autoRaise = true := by
      intro hfloating
      by_contra hoff
      exact hstays ⟨hfloating, by simpa using hoff⟩
    obtain ⟨l', hl', hsettles⟩ := h.restackLeaf promote hclient hmoves hlive
    exact ⟨l', hl', .settles (fun hs => hmoves (hstate.1 hs)) hsettles⟩

theorem Settles.erase {level : NodeId → Nat} {n : NodeId} {promote : Bool}
    {others l : List NodeId} (h : Settles level n promote others l) (hn : n ∉ others) :
    l.erase n = others := by
  cases h with
  | front =>
    rw [List.erase_append_right _ fun hmem => hn (List.mem_append_left _ hmem),
      List.erase_cons_head]
  | back =>
    rw [List.erase_append_right _ fun hmem => hn (List.mem_append_left _ hmem),
      List.erase_cons_head]

/-- Restacking a leaf again makes no difference to what may come out. -/
theorem Moves.again {t : Tree} {autoRaise : Bool} {n : NodeId} {promote : Bool}
    {l l' l'' : List NodeId} (hnodup : l.Nodup) (h : Moves t autoRaise n promote l l')
    (h' : Moves t autoRaise n promote l' l'') : Moves t autoRaise n promote l l'' := by
  cases h with
  | stays => exact h'
  | settles hmoves hsettles =>
    cases h' with
    | stays hfloating hoff =>
      rw [hmoves hfloating] at hoff
      cases hoff
    | settles _ hsettles' =>
      rw [hsettles.erase hnodup.not_mem_erase] at hsettles'
      exact .settles hmoves hsettles'

theorem Moves.mem_iff {t : Tree} {autoRaise : Bool} {n m : NodeId} {promote : Bool}
    {l l' : List NodeId} (h : Moves t autoRaise n promote l l') (hm : m ≠ n) :
    m ∈ l' ↔ m ∈ l := by
  cases h with
  | stays => exact Iff.rfl
  | settles _ hsettles =>
    rw [hsettles.perm.mem_iff, List.mem_cons, List.mem_erase_of_ne hm]
    simp [hm]

/-! ## Effects -/

/-- What the stack has to tell: that a window goes above or below another one, a line about that,
and the new list of the windows. -/
inductive PlacementEffect : Effect → Prop where
  | beside (relation : Relation) (w other : Window) :
      PlacementEffect (.request (relation.request w other))
  | told {m : Message} (h : m.topics = .single .nodeStack) : PlacementEffect (.message m)
  | listed (ws : List Window) : PlacementEffect (.request (.clientList ws))

theorem mem_restackLeaf {t : Tree} {promote autoRaise : Bool} {s : Stack} {n : NodeId}
    {e : Effect} (he : e ∈ (restackLeaf t promote autoRaise s n).2) : PlacementEffect e := by
  unfold restackLeaf at he
  split at he
  · cases he
  split at he
  · cases he
  split at he
  · cases he
  split at he
  · cases he
  · rename_i anchor other relation hdestination
    rcases List.mem_pair.1 he with rfl | rfl
    · exact .beside relation _ _
    · exact .told rfl

theorem mem_restackLeaves {t : Tree} {promote autoRaise : Bool} {s : Stack} {ns : List NodeId}
    {e : Effect} (he : e ∈ (restackLeaves t promote autoRaise s ns).2) : PlacementEffect e := by
  induction ns generalizing s with
  | nil => cases he
  | cons n ns ih =>
    rcases List.mem_append.1 he with he | he
    · exact mem_restackLeaf he
    · exact ih he

theorem mem_raiseFeedback {s : Stack} {t : Tree} {root : Option NodeId} {e : Effect}
    (he : e ∈ s.raiseFeedback t root) : PlacementEffect e := by
  unfold raiseFeedback at he
  split at he
  · cases he
  · obtain ⟨w, -, rfl⟩ := List.mem_map.1 he
    exact .beside .above w _

theorem mem_restack {s : Stack} {t : Tree} {root : Option NodeId} {n : NodeId}
    {promote autoRaise : Bool} {e : Effect} (he : e ∈ (s.restack t root n promote autoRaise).2) :
    PlacementEffect e := by
  rcases List.mem_append.1 he with he | he
  · exact mem_restackLeaves he
  rcases List.mem_cons.1 he with rfl | he
  · exact .listed _
  · exact mem_raiseFeedback he

/-! ## Order by level -/

/-- Levels do not decrease from the bottom to the front. -/
def Ascends (level : NodeId → Nat) (l : List NodeId) : Prop :=
  l.Pairwise fun a b => level a ≤ level b

instance (level : NodeId → Nat) (l : List NodeId) : Decidable (Ascends level l) :=
  inferInstanceAs (Decidable (List.Pairwise _ _))

/-- Among others that ascend only as far as the exempt ones are left out, a leaf is misled: an
exempt leaf out of its level comes before the place where the leaf belongs. -/
def Misleads (level : NodeId → Nat) (exempt : NodeId → Bool) (n : NodeId) (promote : Bool)
    (others : List NodeId) : Prop :=
  ∃ x a, exempt x = true ∧ exempt a = false ∧
    if promote then [x, a].Sublist others ∧ level a < level n ∧ level n < level x
    else [a, x].Sublist others ∧ level x < level n ∧ level n < level a

theorem not_misleads {level : NodeId → Nat} {n : NodeId} {promote : Bool} {others : List NodeId} :
    ¬ Misleads level (fun _ => false) n promote others := by
  rintro ⟨x, a, hx, -⟩
  cases hx

theorem sublist_head {left right : List NodeId} {y z : NodeId} (hy : right.head? = some y)
    (hz : z ∈ right) (hne : z ≠ y) : [y, z].Sublist (left ++ right) := by
  obtain ⟨rest, rfl⟩ := List.head?_eq_some_iff.1 hy
  have hrest : z ∈ rest := by simpa [hne] using hz
  exact ((List.singleton_sublist.2 hrest).cons_cons y).trans (List.sublist_append_right left _)

theorem sublist_getLast {left right : List NodeId} {y z : NodeId} (hy : left.getLast? = some y)
    (hz : z ∈ left) (hne : z ≠ y) : [z, y].Sublist (left ++ right) := by
  obtain ⟨rest, rfl⟩ := List.getLast?_eq_some_iff.1 hy
  have hrest : z ∈ rest := by simpa [hne] using hz
  have hpair : ([z] ++ [y]).Sublist (rest ++ [y]) :=
    (List.singleton_sublist.2 hrest).append (List.Sublist.refl [y])
  exact hpair.trans (List.sublist_append_left _ right)

theorem mem_right_of_sublist {left right : List NodeId} {x a : NodeId}
    (h : [x, a].Sublist (left ++ right)) (hx : x ∉ left) : a ∈ right := by
  obtain ⟨l₁, l₂, hsplit, hl₁, hl₂⟩ := List.sublist_append_iff.1 h
  cases l₁ with
  | nil =>
    rw [List.nil_append] at hsplit
    exact hl₂.subset (hsplit ▸ by simp)
  | cons y l₁ =>
    obtain rfl : x = y := by simpa using congrArg List.head? hsplit
    exact absurd (hl₁.subset List.mem_cons_self) hx

theorem mem_left_of_sublist {left right : List NodeId} {x a : NodeId}
    (h : [a, x].Sublist (left ++ right)) (hx : x ∉ right) : a ∈ left := by
  have hreverse : [x, a].Sublist (right.reverse ++ left.reverse) := by
    rw [← List.reverse_append]
    exact h.reverse
  simpa using mem_right_of_sublist hreverse (by simpa using hx)

theorem Ascends.le_of_sublist {level : NodeId → Nat} {exempt : NodeId → Bool} {l : List NodeId}
    (h : Ascends level (l.filter fun m => !exempt m)) {a b : NodeId} (hab : [a, b].Sublist l)
    (ha : exempt a = false) (hb : exempt b = false) : level a ≤ level b := by
  have hpair := hab.filter fun m => !exempt m
  rw [List.filter_cons_of_pos (by simp [ha]), List.filter_cons_of_pos (by simp [hb])] at hpair
  have hle := List.Pairwise.sublist hpair h
  simpa using hle

theorem ascends_insert_iff {level : NodeId → Nat} {exempt : NodeId → Bool} {n : NodeId}
    {left right : List NodeId} (hn : exempt n = false)
    (h : Ascends level ((left ++ right).filter fun m => !exempt m)) :
    Ascends level ((left ++ n :: right).filter fun m => !exempt m) ↔
      (∀ z ∈ left, exempt z = false → level z ≤ level n) ∧
      ∀ z ∈ right, exempt z = false → level n ≤ level z := by
  rw [List.filter_append] at h
  obtain ⟨hl, hr, hlr⟩ := List.pairwise_append.1 h
  rw [List.filter_append, List.filter_cons_of_pos (by simp [hn]), Ascends, List.pairwise_append,
    List.pairwise_cons]
  constructor
  · rintro ⟨-, ⟨habove, -⟩, hbelow⟩
    refine ⟨fun z hz hexempt => ?_, fun z hz hexempt => ?_⟩
    · exact hbelow z (List.mem_filter.2 ⟨hz, by simp [hexempt]⟩) n List.mem_cons_self
    · exact habove z (List.mem_filter.2 ⟨hz, by simp [hexempt]⟩)
  · rintro ⟨hbelow, habove⟩
    refine ⟨hl, ⟨fun z hz => ?_, hr⟩, fun a ha b hb => ?_⟩
    · obtain ⟨hz, hexempt⟩ := List.mem_filter.1 hz
      exact habove z hz (by simpa using hexempt)
    · rcases List.mem_cons.1 hb with rfl | hb
      · obtain ⟨ha, hexempt⟩ := List.mem_filter.1 ha
        exact hbelow a ha (by simpa using hexempt)
      · exact hlr a ha b hb

/-- The leaves that are not exempt stay in order when one of them settles, unless it is misled. -/
theorem Settles.ascends_iff {level : NodeId → Nat} {exempt : NodeId → Bool} {n : NodeId}
    {promote : Bool} {others l : List NodeId} (h : Settles level n promote others l)
    (hn : exempt n = false) (hothers : Ascends level (others.filter fun m => !exempt m)) :
    Ascends level (l.filter fun m => !exempt m) ↔ ¬ Misleads level exempt n promote others := by
  cases h with
  | @front left right hleft hright =>
    rw [ascends_insert_iff hn hothers, Misleads]
    simp only [if_true]
    constructor
    · rintro ⟨-, habove⟩ ⟨x, a, -, ha, hsub, hlt, hlt'⟩
      have hx : x ∉ left := fun hx => by
        have hle := hleft x hx
        omega
      have hle := habove a (mem_right_of_sublist hsub hx) ha
      omega
    · intro hnone
      refine ⟨fun z hz _ => hleft z hz, fun z hz hexempt => ?_⟩
      by_contra hlt
      obtain ⟨y, hy⟩ := Option.isSome_iff_exists.1 (List.isSome_head?.2 (List.ne_nil_of_mem hz))
      have hlevel : level n < level y := hright y hy
      have hne : z ≠ y := fun heq => hlt (heq ▸ Nat.le_of_lt hlevel)
      have hsub : [y, z].Sublist (left ++ right) := sublist_head hy hz hne
      have hyexempt : exempt y = true := by
        by_contra hyexempt
        have hle := hothers.le_of_sublist hsub (by simpa using hyexempt) hexempt
        omega
      exact hnone ⟨y, z, hyexempt, hexempt, hsub, by omega, hlevel⟩
  | @back left right hleft hright =>
    rw [ascends_insert_iff hn hothers, Misleads]
    simp only [Bool.false_eq_true, if_false]
    constructor
    · rintro ⟨hbelow, -⟩ ⟨x, a, -, ha, hsub, hlt, hlt'⟩
      have hx : x ∉ right := fun hx => by
        have hle := hright x hx
        omega
      have hle := hbelow a (mem_left_of_sublist hsub hx) ha
      omega
    · intro hnone
      refine ⟨fun z hz hexempt => ?_, fun z hz _ => hright z hz⟩
      by_contra hlt
      obtain ⟨y, hy⟩ :=
        Option.isSome_iff_exists.1 (List.getLast?_isSome.2 (List.ne_nil_of_mem hz))
      have hlevel : level y < level n := hleft y hy
      have hne : z ≠ y := fun heq => hlt (heq ▸ Nat.le_of_lt hlevel)
      have hsub : [z, y].Sublist (left ++ right) := sublist_getLast hy hz hne
      have hyexempt : exempt y = true := by
        by_contra hyexempt
        have hle := hothers.le_of_sublist hsub hexempt (by simpa using hyexempt)
        omega
      exact hnone ⟨y, z, hyexempt, hexempt, hsub, hlevel, by omega⟩

/-- A leaf that settles among ordered leaves keeps the order. -/
theorem Settles.ascends {level : NodeId → Nat} {n : NodeId} {promote : Bool}
    {others l : List NodeId} (h : Settles level n promote others l)
    (hothers : Ascends level others) : Ascends level l := by
  have hfilter (k : List NodeId) : (k.filter fun _ => !false) = k := by simp
  have hiff : Ascends level (l.filter fun _ => !false) ↔
      ¬ Misleads level (fun _ => false) n promote others :=
    h.ascends_iff rfl (by rwa [hfilter])
  rw [hfilter] at hiff
  exact hiff.2 not_misleads

end Tiling.Stack
