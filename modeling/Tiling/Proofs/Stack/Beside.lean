import Tiling.Proofs.Stack.Placement
/-!
# Restacking on lists

What restacking does depends on the list that the stack holds and not on the slots of its
entries. A leaf goes beside one of the others in the list; the display is asked for the same
move.
-/

namespace Tiling

/-! ## Beside another element -/

/-- An element on the wanted side of another one, bottom first. -/
def Relation.pair {α : Type} (relation : Relation) (a b : α) : List α :=
  match relation with
  | .above => [b, a]
  | .below => [a, b]

theorem Relation.pair_perm {α : Type} (relation : Relation) (a b : α) :
    (relation.pair a b).Perm [a, b] := by
  cases relation with
  | above => exact List.Perm.swap a b []
  | below => exact List.Perm.refl _

section Beside

variable {α : Type} [DecidableEq α] {relation : Relation} {a b : α}

/-- Puts an element directly above or below another one of a list, bottom first. -/
def putBeside (relation : Relation) (a b : α) : List α → List α
  | [] => []
  | x :: l => if x = b then relation.pair a b ++ l else x :: putBeside relation a b l

theorem putBeside_split {left : List α} (hb : b ∉ left) (right : List α) :
    putBeside relation a b (left ++ b :: right) = left ++ (relation.pair a b ++ right) := by
  induction left with
  | nil => rw [List.nil_append, putBeside, if_pos rfl, List.nil_append]
  | cons x left ih =>
    obtain ⟨hx, hleft⟩ := not_or.1 fun h => hb (List.mem_cons.2 h)
    rw [List.cons_append, putBeside, if_neg (Ne.symm hx), ih hleft, List.cons_append]

theorem putBeside_perm {l : List α} (hb : b ∈ l) : (putBeside relation a b l).Perm (a :: l) := by
  induction l with
  | nil => cases hb
  | cons x l ih =>
    rw [putBeside]
    by_cases hx : x = b
    · rw [if_pos hx, hx]
      exact (relation.pair_perm a b).append_right l
    · rw [if_neg hx]
      have hb := (List.mem_cons.1 hb).resolve_left (Ne.symm hx)
      exact ((ih hb).cons x).trans (List.Perm.swap a x l)

theorem nodup_putBeside {l : List α} (hb : b ∈ l) (ha : a ∉ l) (h : l.Nodup) :
    (putBeside relation a b l).Nodup := by
  rw [(putBeside_perm hb).nodup_iff, List.nodup_cons]
  exact ⟨ha, h⟩

/-- Leaving elements out, but neither of the two, leaves the move as it is. -/
theorem filter_putBeside {p : α → Bool} (ha : p a = true) (hb : p b = true) (l : List α) :
    (putBeside relation a b l).filter p = putBeside relation a b (l.filter p) := by
  induction l with
  | nil => rfl
  | cons x l ih =>
    rw [putBeside]
    by_cases hx : x = b
    · rw [if_pos hx, List.filter_cons_of_pos (by rw [hx, hb]), putBeside, if_pos hx]
      cases relation <;> simp [Relation.pair, ha, hb]
    · rw [if_neg hx]
      by_cases hp : p x = true
      · rw [List.filter_cons_of_pos hp, List.filter_cons_of_pos hp, putBeside, if_neg hx, ih]
      · rw [List.filter_cons_of_neg hp, List.filter_cons_of_neg hp, ih]

/-- An element that is left out moves unseen. -/
theorem filter_putBeside_of_not {p : α → Bool} (ha : ¬ p a = true) (l : List α) :
    (putBeside relation a b l).filter p = l.filter p := by
  induction l with
  | nil => rfl
  | cons x l ih =>
    rw [putBeside]
    by_cases hx : x = b
    · rw [if_pos hx, hx]
      cases relation <;> simp [Relation.pair, ha, List.filter_cons]
    · rw [if_neg hx, List.filter_cons, List.filter_cons, ih]

theorem filter_erase_of_not {p : α → Bool} (ha : ¬ p a = true) (l : List α) :
    (l.erase a).filter p = l.filter p := by
  induction l with
  | nil => rfl
  | cons x l ih =>
    by_cases hx : x = a
    · rw [hx, List.erase_cons_head, List.filter_cons_of_neg ha]
    · rw [List.erase_cons_tail (by simpa using hx), List.filter_cons, List.filter_cons, ih]

theorem filterMap_putBeside {β : Type} [DecidableEq β] {f : α → Option β} {l : List α} {a' b' : β}
    (ha : f a = some a') (hb : f b = some b') (hinj : ∀ x ∈ l, f x = some b' → x = b) :
    (putBeside relation a b l).filterMap f = putBeside relation a' b' (l.filterMap f) := by
  induction l with
  | nil => rfl
  | cons x l ih =>
    have hrest := ih fun y hy => hinj y (List.mem_cons_of_mem x hy)
    rw [putBeside]
    by_cases hx : x = b
    · subst hx
      rw [if_pos rfl, List.filterMap_cons_some hb, putBeside, if_pos rfl]
      cases relation <;> simp [Relation.pair, ha, hb]
    · rw [if_neg hx, List.filterMap_cons, List.filterMap_cons, hrest]
      cases hfx : f x with
      | none => rfl
      | some y =>
        have hy : y ≠ b' := fun heq => hx (hinj x List.mem_cons_self (heq ▸ hfx))
        simp only [putBeside, if_neg hy]

end Beside

namespace Stack

/-! ## The leaf beside which another one goes -/

/-- Where a leaf goes among others: promoted, below the first one of a higher level or above the
last one; else above the last one of a lower level or below the first one. -/
def beside? (t : Tree) (promote : Bool) (n : NodeId) (others : List NodeId) : Option NodeId :=
  if promote then (others.find? fun m => t.level n < t.level m).or others.getLast?
  else (others.reverse.find? fun m => t.level m < t.level n).or others.head?

theorem find?_above {t : Tree} {n m : NodeId} {left : List NodeId}
    (hleft : ∀ z ∈ left, t.level z ≤ t.level n) (hm : t.level n < t.level m)
    (right : List NodeId) :
    (left ++ m :: right).find? (fun z => t.level n < t.level z) = some m := by
  rw [List.find?_append, List.find?_eq_none.2 fun z hz => by simpa using hleft z hz, Option.none_or,
    List.find?_cons_of_pos (by simpa using hm)]

theorem find?_below {t : Tree} {n m : NodeId} {right : List NodeId}
    (hright : ∀ z ∈ right, t.level n ≤ t.level z) (hm : t.level m < t.level n)
    (left : List NodeId) :
    (left ++ m :: right).reverse.find? (fun z => t.level z < t.level n) = some m := by
  rw [List.reverse_append, List.reverse_cons, List.append_assoc, List.find?_append,
    List.find?_eq_none.2 fun z hz => by simpa using hright z (List.mem_reverse.1 hz),
    Option.none_or, List.singleton_append, List.find?_cons_of_pos (by simpa using hm)]

/-- The anchor of a placement is the entry of the leaf beside which the placed one goes. -/
theorem Holds.anchor_cases {s : Stack} {l : List NodeId} (h : s.Holds l) (t : Tree)
    (promote : Bool) (n : NodeId) :
    (s.anchor? t promote n = none ∧ beside? t promote n (l.erase n) = none) ∨
    ∃ a m, s.anchor? t promote n = some a ∧ s.node? a = some m ∧
      beside? t promote n (l.erase n) = some m ∧ m ∈ l.erase n := by
  cases promote with
  | true =>
    rw [anchor?, if_pos rfl, beside?, if_pos rfl]
    rcases h.limitAbove_cases t n with ⟨a, m, left, right, ha, hnode, hsplit, hleft, hlt⟩ |
      ⟨a, m, left, ha, hnode, hsplit, hall⟩ | ⟨ha, hothers⟩
    · rw [hsplit, find?_above hleft hlt]
      exact .inr ⟨a, m, ha, hnode, Option.some_or, by simp⟩
    · have hnone : (l.erase n).find? (fun z => t.level n < t.level z) = none :=
        List.find?_eq_none.2 fun z hz => by simpa using hall z (List.mem_of_mem_erase hz)
      rw [hnone, hsplit, Option.none_or, List.getLast?_concat]
      exact .inr ⟨a, m, ha, hnode, rfl, by simp⟩
    · rw [hothers]
      exact .inl ⟨ha, rfl⟩
  | false =>
    rw [anchor?, if_neg (by simp), beside?, if_neg (by simp)]
    rcases h.limitBelow_cases t n with ⟨a, m, left, right, ha, hnode, hsplit, hright, hlt⟩ |
      ⟨a, m, right, ha, hnode, hsplit, hall⟩ | ⟨ha, hothers⟩
    · rw [hsplit, find?_below hright hlt]
      exact .inr ⟨a, m, ha, hnode, Option.some_or, by simp⟩
    · have hnone : (l.erase n).reverse.find? (fun z => t.level z < t.level n) = none :=
        List.find?_eq_none.2 fun z hz => by
          simpa using hall z (List.mem_of_mem_erase (List.mem_reverse.1 hz))
      rw [hnone, hsplit, Option.none_or, List.head?_cons]
      exact .inr ⟨a, m, ha, hnode, rfl, by simp⟩
    · rw [hothers]
      exact .inl ⟨ha, rfl⟩

/-! ## Restacking -/

/-- Where a leaf goes: the other leaf, its window and the side of it. -/
def target? (t : Tree) (promote : Bool) (n : NodeId) (others : List NodeId) :
    Option (NodeId × Window × Relation) :=
  (beside? t promote n others).bind fun other =>
    (t.window? other).map fun window => (other, window, relationTo t promote n other)

/-- What a placement asks of the display, and what is announced of it. -/
def placementEffects (window other : Window) (relation : Relation) : List Effect :=
  [.request (relation.request window other), .message (placementMessage window other relation)]

/-- Places one leaf in a list. -/
def placeLeaf (t : Tree) (promote autoRaise : Bool) (l : List NodeId) (n : NodeId) :
    List NodeId × List Effect :=
  match t.client? n with
  | none => (l, [])
  | some client =>
    if client.state == .floating && !autoRaise then (l, [])
    else if l.isEmpty then ([n], [])
    else
      match target? t promote n (l.erase n) with
      | none => (l, [])
      | some (other, window, relation) =>
        (putBeside relation n other (l.erase n), placementEffects client.window window relation)

/-- Places leaves in a list one after the other. -/
def placeLeaves (t : Tree) (promote autoRaise : Bool) :
    List NodeId → List NodeId → List NodeId × List Effect
  | l, [] => (l, [])
  | l, n :: rest =>
    let (l, first) := placeLeaf t promote autoRaise l n
    let (l, others) := placeLeaves t promote autoRaise l rest
    (l, first ++ others)

theorem mem_of_beside? {t : Tree} {promote : Bool} {n m : NodeId} {others : List NodeId}
    (h : beside? t promote n others = some m) : m ∈ others := by
  cases promote with
  | true =>
    rcases Option.or_eq_some_iff.1 h with hfind | ⟨-, hlast⟩
    · exact List.mem_of_find?_eq_some hfind
    · exact List.mem_of_getLast? hlast
  | false =>
    rcases Option.or_eq_some_iff.1 h with hfind | ⟨-, hhead⟩
    · exact List.mem_reverse.1 (List.mem_of_find?_eq_some hfind)
    · exact List.mem_of_head? hhead

/-- A leaf stays where it is, is the first one in the list, or goes beside another one. -/
theorem placeLeaf_cases {t : Tree} {n : NodeId} {client : Client}
    (hclient : t.client? n = some client) (promote autoRaise : Bool) (l : List NodeId) :
    placeLeaf t promote autoRaise l n = (l, []) ∨
    (l = [] ∧ placeLeaf t promote autoRaise l n = ([n], [])) ∨
    ∃ m window relation, m ∈ l.erase n ∧ t.window? m = some window ∧
      placeLeaf t promote autoRaise l n =
        (putBeside relation n m (l.erase n), placementEffects client.window window relation) := by
  simp only [placeLeaf, hclient]
  split
  · exact .inl rfl
  split
  · rename_i hempty
    exact .inr (.inl ⟨List.isEmpty_iff.1 hempty, rfl⟩)
  cases htarget : target? t promote n (l.erase n) with
  | none => exact .inl rfl
  | some target =>
    obtain ⟨m, window, relation⟩ := target
    obtain ⟨m', hbeside, hrest⟩ := Option.bind_eq_some_iff.1 htarget
    obtain ⟨window', hwindow, heq⟩ := Option.map_eq_some_iff.1 hrest
    obtain ⟨rfl, rfl, -⟩ : m' = m ∧ window' = window ∧ _ := by simpa using heq
    exact .inr (.inr ⟨m', window', relation, mem_of_beside? hbeside, hwindow, rfl⟩)

theorem destination?_of_window_none {s : Stack} {t : Tree} {promote : Bool} {n m : NodeId}
    {a : EntryId} (hanchor : s.anchor? t promote n = some a) (hnode : s.node? a = some m)
    (hwindow : t.window? m = none) : s.destination? t promote n = none := by
  cases promote <;> simp [anchor?] at hanchor <;> simp [destination?, hanchor, hnode, hwindow]

theorem destination?_of_window {s : Stack} {t : Tree} {promote : Bool} {n m : NodeId}
    {a : EntryId} {window : Window} (hanchor : s.anchor? t promote n = some a)
    (hnode : s.node? a = some m) (hwindow : t.window? m = some window) :
    s.destination? t promote n = some (a, window, relationTo t promote n m) := by
  cases promote <;> simp [anchor?] at hanchor <;> simp [destination?, hanchor, hnode, hwindow]

namespace Holds

variable {s : Stack} {l : List NodeId}

/-- An entry that is placed beside an anchor is placed beside the leaf of the anchor. -/
theorem insertBeside (h : s.Holds l) {a : EntryId} {n m : NodeId} (ha : s.node? a = some m)
    (hm : m ∈ l.erase n) (relation : Relation) :
    Holds (match relation with
      | .above => s.insertAfter (some a) n
      | .below => s.insertBefore (some a) n) (putBeside relation n m (l.erase n)) := by
  obtain ⟨left, right, hsplit⟩ := List.append_of_mem hm
  have hne : m ≠ n := ne_of_mem_of_not_mem hm h.1.not_mem_erase
  have hleft : m ∉ left := fun hmem => by
    have hnodup := h.1.erase n
    rw [hsplit, List.nodup_append] at hnodup
    exact hnodup.2.2 m hmem m List.mem_cons_self rfl
  rw [hsplit, putBeside_split hleft]
  cases relation with
  | above => exact h.insertAfter ha hne hsplit
  | below => exact h.insertBefore ha hne hsplit

theorem restackLeaf_eq (h : s.Holds l) (t : Tree) (promote autoRaise : Bool) (n : NodeId) :
    (Stack.restackLeaf t promote autoRaise s n).1.Holds (placeLeaf t promote autoRaise l n).1 ∧
      (Stack.restackLeaf t promote autoRaise s n).2 = (placeLeaf t promote autoRaise l n).2 := by
  unfold Stack.restackLeaf placeLeaf
  cases t.client? n with
  | none => exact ⟨h, rfl⟩
  | some client =>
    dsimp only
    rw [h.isEmpty_eq]
    by_cases hstays : (client.state == .floating && !autoRaise) = true
    · rw [if_pos hstays, if_pos hstays]
      exact ⟨h, rfl⟩
    rw [if_neg hstays, if_neg hstays]
    by_cases hempty : l.isEmpty = true
    · rw [if_pos hempty, if_pos hempty]
      exact ⟨Holds.singleton n, rfl⟩
    rw [if_neg hempty, if_neg hempty, target?]
    rcases h.anchor_cases t promote n with ⟨hanchor, hbeside⟩ | ⟨a, m, hanchor, hnode, hbeside, hm⟩
    · rw [destination?_of_none hanchor, hbeside]
      exact ⟨h, rfl⟩
    · rw [hbeside, Option.bind_some]
      cases hwindow : t.window? m with
      | none =>
        rw [destination?_of_window_none hanchor hnode hwindow]
        exact ⟨h, rfl⟩
      | some window =>
        rw [destination?_of_window hanchor hnode hwindow]
        exact ⟨h.insertBeside hnode hm _, rfl⟩

theorem restackLeaves_eq (h : s.Holds l) (t : Tree) (promote autoRaise : Bool)
    (ns : List NodeId) :
    (Stack.restackLeaves t promote autoRaise s ns).1.Holds
        (placeLeaves t promote autoRaise l ns).1 ∧
      (Stack.restackLeaves t promote autoRaise s ns).2 =
        (placeLeaves t promote autoRaise l ns).2 := by
  induction ns generalizing s l with
  | nil => exact ⟨h, rfl⟩
  | cons n ns ih =>
    obtain ⟨hleaf, heffects⟩ := h.restackLeaf_eq t promote autoRaise n
    obtain ⟨hrest, hothers⟩ := ih hleaf
    refine ⟨hrest, ?_⟩
    simp only [Stack.restackLeaves, placeLeaves, heffects, hothers]

theorem windows_eq (h : s.Holds l) (t : Tree) : s.windows t = l.filterMap t.window? := by
  rw [windows, h.toList_eq]

theorem downward_nodes (h : s.Holds l) : s.downward.filterMap s.node? = l.reverse := by
  obtain ⟨-, places, hlinked, rfl⟩ := h
  rw [hlinked.downward_eq, ← List.map_reverse, hlinked.filterMap_node? fun x hx => ?_,
    ← List.map_reverse]
  exact List.mem_reverse.1 hx

theorem raiseFeedback_congr {s' : Stack} (h : s.Holds l) (h' : s'.Holds l) (t : Tree)
    (root : Option NodeId) : s'.raiseFeedback t root = s.raiseFeedback t root := by
  rw [raiseFeedback, raiseFeedback, topmostTiled?, topmostTiled?, h.downward_nodes,
    h'.downward_nodes]

/-- Two stacks that hold the same list are restacked alike. -/
theorem restack_congr {s' : Stack} (h : s.Holds l) (h' : s'.Holds l) (t : Tree)
    (root : Option NodeId) (n : NodeId) (promote autoRaise : Bool) :
    (∃ l', (s.restack t root n promote autoRaise).1.Holds l' ∧
      (s'.restack t root n promote autoRaise).1.Holds l') ∧
      (s'.restack t root n promote autoRaise).2 = (s.restack t root n promote autoRaise).2 := by
  obtain ⟨hleaves, heffects⟩ := h.restackLeaves_eq t promote autoRaise (t.leaves (some n))
  obtain ⟨hleaves', heffects'⟩ := h'.restackLeaves_eq t promote autoRaise (t.leaves (some n))
  refine ⟨⟨_, hleaves, hleaves'⟩, ?_⟩
  simp only [Stack.restack]
  rw [heffects, heffects', hleaves.windows_eq, hleaves'.windows_eq,
    hleaves.raiseFeedback_congr hleaves']

theorem remove (h : s.Holds l) (t : Tree) (n : NodeId) :
    (s.remove t n).Holds ((t.leaves (some n)).foldl List.erase l) := by
  rw [Stack.remove]
  induction t.leaves (some n) generalizing s l with
  | nil => exact h
  | cons m ms ih => exact ih (h.removeNode m)

end Holds

end Stack

end Tiling
