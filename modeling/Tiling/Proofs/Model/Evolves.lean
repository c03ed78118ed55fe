import Tiling.Proofs.Model.Keeps
/-!
# What an operation changes

Every operation amounts to at most three changes: a leaf is gone, one leaf changes or is new, and
that leaf is placed in the stack.  All other leaves stand as they did, in their order.
-/

namespace Tiling

namespace Stack

theorem Moves.congr {t t' : Tree} {autoRaise : Bool} {n : NodeId} {promote : Bool}
    {l l' : List NodeId} (h : Moves t autoRaise n promote l l')
    (hstanding : ∀ m, t'.standing? m = t.standing? m) : Moves t' autoRaise n promote l l' := by
  have hlevel : t'.level = t.level := funext fun m => Tree.level_of_standing (hstanding m)
  have hstate := Tree.state_of_standing (hstanding n)
  cases h with
  | stays hfloating hoff => exact .stays (hstate.trans hfloating) hoff
  | settles hmoves hsettles =>
    exact .settles (fun hs => hmoves (hstate.symm.trans hs)) (hlevel ▸ hsettles)

/-- The order without a leaf that is gone. -/
def without (gone : Option NodeId) (l : List NodeId) : List NodeId :=
  match gone with
  | none => l
  | some n => l.erase n

/-- What a leaf that is gone and a leaf that is placed do to the order. -/
def Rearranges (t : Tree) (autoRaise : Bool) (gone : Option NodeId)
    (placed : Option (NodeId × Bool)) (l l' : List NodeId) : Prop :=
  match placed with
  | none => l' = without gone l
  | some (n, promote) => Moves t autoRaise n promote (without gone l) l'

theorem Rearranges.congr {t t' : Tree} {autoRaise : Bool} {gone : Option NodeId}
    {placed : Option (NodeId × Bool)} {l l' : List NodeId}
    (h : Rearranges t autoRaise gone placed l l')
    (hstanding : ∀ m, t'.standing? m = t.standing? m) :
    Rearranges t' autoRaise gone placed l l' := by
  cases placed with
  | none => exact h
  | some place => exact Moves.congr h hstanding

end Stack

namespace Stage

/-- From `s` to `s'` the leaf `gone` has gone, and the leaf of `placed` has been placed,
promoted or not.  Nothing else has changed that the stack sees. -/
structure Evolves (s s' : Stage) (gone : Option NodeId) (placed : Option (NodeId × Bool)) :
    Prop where
  settings : s'.settings = s.settings
  standing : ∀ n, gone ≠ some n → placed.map Prod.fst ≠ some n →
    s'.model.tree.standing? n = s.model.tree.standing? n
  gone_client : ∀ n, gone = some n →
    (s.model.tree.client? n).isSome ∧ s'.model.tree.client? n = none
  placed_client : ∀ n, placed.map Prod.fst = some n → (s'.model.tree.client? n).isSome
  stack : ∀ l, s.model.stack.Holds l → (∀ n ∈ l, (s.model.tree.client? n).isSome) →
    ∃ l', s'.model.stack.Holds l' ∧
      Stack.Rearranges s'.model.tree s'.settings.autoRaise gone placed l l'

theorem Keeps.evolves {s s' : Stage} (h : s.Keeps s') : s.Evolves s' none none where
  settings := h.settings
  standing n _ _ := h.standing n
  gone_client n hn := by cases hn
  placed_client n hn := by cases hn
  stack l hl _ := ⟨l, by rwa [h.stack], rfl⟩

namespace Evolves

theorem keeps {s s' s'' : Stage} {gone : Option NodeId} {placed : Option (NodeId × Bool)}
    (h : s.Evolves s' gone placed) (h' : s'.Keeps s'') : s.Evolves s'' gone placed where
  settings := h'.settings.trans h.settings
  standing n hg hp := (h'.standing n).trans (h.standing n hg hp)
  gone_client n hn := by
    obtain ⟨hsome, hnone⟩ := h.gone_client n hn
    refine ⟨hsome, ?_⟩
    rw [← Option.isNone_iff_eq_none, ← Option.not_isSome,
      Tree.isSome_client?_of_standing (h'.standing n), hnone]
    rfl
  placed_client n hn := by
    rw [Tree.isSome_client?_of_standing (h'.standing n)]
    exact h.placed_client n hn
  stack l hl hlive := by
    obtain ⟨l', hl', hmoves⟩ := h.stack l hl hlive
    exact ⟨l', by rwa [h'.stack], by rw [h'.settings]; exact hmoves.congr h'.standing⟩

/-- A leaf that changes, or is new, and is then placed. -/
theorem of_change {s s' s'' : Stage} {n : NodeId} {promote : Bool}
    (hsettings : s'.settings = s.settings) (hstack : s'.model.stack = s.model.stack)
    (hstanding : ∀ m, m ≠ n → s'.model.tree.standing? m = s.model.tree.standing? m)
    (hlive : (s'.model.tree.client? n).isSome)
    (h : s'.Evolves s'' none (some (n, promote))) : s.Evolves s'' none (some (n, promote)) where
  settings := h.settings.trans hsettings
  standing m hg hp := by
    have hne : m ≠ n := fun heq => hp (heq ▸ rfl)
    exact (h.standing m hg hp).trans (hstanding m hne)
  gone_client m hm := by cases hm
  placed_client := h.placed_client
  stack l hl hl' := by
    refine h.stack l (hstack ▸ hl) fun m hm => ?_
    by_cases heq : m = n
    · rwa [heq]
    · rw [Tree.isSome_client?_of_standing (hstanding m heq)]
      exact hl' m hm

/-- A leaf that is placed twice. -/
theorem again {s s' s'' : Stage} {n : NodeId} {promote : Bool}
    (h : s.Evolves s' none (some (n, promote))) (h' : s'.Evolves s'' none (some (n, promote)))
    (hstanding : ∀ m, s''.model.tree.standing? m = s'.model.tree.standing? m)
    (hlive : ∀ l, s'.model.stack.Holds l → ∀ m ∈ l, (s'.model.tree.client? m).isSome) :
    s.Evolves s'' none (some (n, promote)) where
  settings := h'.settings.trans h.settings
  standing m hg hp := (hstanding m).trans (h.standing m hg hp)
  gone_client m hm := by cases hm
  placed_client := h'.placed_client
  stack l hl hl' := by
    obtain ⟨l', hholds, hmoves⟩ := h.stack l hl hl'
    obtain ⟨l'', hholds', hmoves'⟩ := h'.stack l' hholds (hlive l' hholds)
    have hfirst : Stack.Moves s''.model.tree s''.settings.autoRaise n promote l l' := by
      rw [h'.settings]
      exact Stack.Moves.congr hmoves hstanding
    exact ⟨l'', hholds', hfirst.again hl.1 hmoves'⟩

/-- A leaf that is gone before another one is placed. -/
theorem comp {s s' s'' : Stage} {gone : Option NodeId} {placed : Option (NodeId × Bool)}
    (h : s.Evolves s' gone none) (h' : s'.Evolves s'' none placed)
    (hne : ∀ n, gone = some n → placed.map Prod.fst ≠ some n)
    (hlive : ∀ l, s'.model.stack.Holds l → ∀ m ∈ l, (s'.model.tree.client? m).isSome) :
    s.Evolves s'' gone placed where
  settings := h'.settings.trans h.settings
  standing n hg hp := (h'.standing n (by simp) hp).trans (h.standing n hg (by simp))
  gone_client n hn := by
    obtain ⟨hsome, hnone⟩ := h.gone_client n hn
    refine ⟨hsome, ?_⟩
    have hstanding := h'.standing n (by simp) (hne n hn)
    rw [← Option.isNone_iff_eq_none, ← Option.not_isSome,
      Tree.isSome_client?_of_standing hstanding, hnone]
    rfl
  placed_client := h'.placed_client
  stack l hl hl' := by
    obtain ⟨l', hholds, rfl⟩ := h.stack l hl hl'
    obtain ⟨l'', hholds', hmoves⟩ := h'.stack _ hholds (hlive _ hholds)
    refine ⟨l'', hholds', ?_⟩
    cases placed with
    | none => exact hmoves
    | some place => exact hmoves

end Evolves

/-! ## Restacking -/

theorem live_of_shaped {m : Model} {shapes : List (Option Tree.Shape)} (h : m.Shaped shapes)
    {l : List NodeId} (hl : m.stack.Holds l) : ∀ n ∈ l, (m.tree.client? n).isSome := by
  obtain ⟨l', hl', hlive⟩ := h.stack
  rwa [hl.unique hl']

theorem restack_spec {s : Stage} {shapes : List (Option Tree.Shape)} (h : s.model.Shaped shapes)
    {n : NodeId} (hn : (s.model.tree.client? n).isSome) (promote : Bool) :
    (s.restack n promote).model.Shaped shapes ∧
      (s.restack n promote).model.tree = s.model.tree ∧
      s.Evolves (s.restack n promote) none (some (n, promote)) := by
  obtain ⟨client, hclient⟩ := Option.isSome_iff_exists.1 hn
  have hleaf := h.forest.leaves_leaf hn
  have hmove (l : List NodeId) (hl : s.model.stack.Holds l) :=
    hl.restack hclient hleaf (live_of_shaped h hl) ((s.model.locate? n).bind s.model.root?) promote
      s.settings.autoRaise
  refine ⟨?_, rfl, ?_⟩
  · obtain ⟨l, hl, hlive⟩ := h.stack
    obtain ⟨l', hl', hmoves⟩ := hmove l hl
    refine h.withStack hl' fun m hm => ?_
    by_cases heq : m = n
    · rwa [heq]
    · exact hlive m ((hmoves.mem_iff heq).1 hm)
  · exact {
      settings := rfl
      standing := fun _ _ _ => rfl
      gone_client := fun _ hm => by cases hm
      placed_client := fun m hm => by
        obtain rfl : n = m := by simpa using hm
        exact hn
      stack := fun l hl _ => hmove l hl }

/-! ## Giving the focus -/

theorem shaped_modifyDesktop {m : Model} {shapes : List (Option Tree.Shape)} (h : m.Shaped shapes)
    {r : DesktopRef} {d : Desktop} (hd : m.desktop? r = some d) {f : Desktop → Desktop}
    (hf : ∀ o ∈ shapes, d.Owns o → (f d).Owns o) : (m.modifyDesktop r f).Shaped shapes := by
  obtain ⟨left, o, right, rfl, ho, hedit⟩ := h.edit hd
  exact hedit m.tree m.stack f o h.forest (hf o (by simp) ho) h.windows h.stack

theorem choose_spec {s : Stage} {shapes : List (Option Tree.Shape)} (h : s.model.Shaped shapes)
    {n : NodeId} (hn : (s.model.tree.client? n).isSome) {r : DesktopRef}
    (hr : s.model.locate? n = some r) :
    (s.choose r n).model.Shaped shapes ∧ (s.choose r n).settings = s.settings ∧
      (s.choose r n).model.stack = s.model.stack ∧
      ∀ m, (s.choose r n).model.tree.standing? m = s.model.tree.standing? m := by
  obtain ⟨shape, r', d, hmem, hleaf, hlocate, hd, howns⟩ := h.locate_client hn
  obtain rfl : r' = r := Option.some.inj (hlocate.symm.trans hr)
  have hshown : s.Keeps (if s.model.focusedDesktop? = some r' then s else s.showDesktop r') := by
    split
    · exact Keeps.refl s
    · exact Keeps.showDesktop s r'
  unfold choose
  generalize (if s.model.focusedDesktop? = some r' then s else s.showDesktop r') = u at *
  refine ⟨?_, hshown.settings, hshown.stack, hshown.standing⟩
  -- the desktop's focus moves to the leaf, the stack and the tree are as before
  refine shaped_modifyDesktop (hshown.shaped h) ((hshown.desktop? r').trans hd) fun o ho hdo => ?_
  cases o with
  | none =>
    have hroot := howns.1
    rw [hdo.1] at hroot
    cases hroot
  | some shape' =>
    obtain rfl := h.owns_unique hmem ho howns hdo
    exact ⟨hdo.1, n, hleaf, rfl⟩

theorem focusNode_spec {s : Stage} {shapes : List (Option Tree.Shape)} (h : s.model.Shaped shapes)
    {n : NodeId} (hn : (s.model.tree.client? n).isSome) :
    (s.focusNode (some n)).model.Shaped shapes ∧
      (∀ m, (s.focusNode (some n)).model.tree.standing? m = s.model.tree.standing? m) ∧
      s.Evolves (s.focusNode (some n)) none (some (n, true)) := by
  obtain ⟨-, r, -, -, -, hlocate, -⟩ := h.locate_client hn
  obtain ⟨words, heq⟩ := focusNode_eq hlocate
  obtain ⟨hchosen, hsettings, hstack, hstanding⟩ := choose_spec h hn hlocate
  have hlive : ((s.choose r n).model.tree.client? n).isSome := by
    rwa [Tree.isSome_client?_of_standing (hstanding n)]
  obtain ⟨hshaped, htree, hevolves⟩ := restack_spec hchosen hlive true
  have hall := Evolves.of_change hsettings hstack (fun m _ => hstanding m) hlive hevolves
  have hlast (w : Stage) (es es' : List Effect) : w.Keeps ((w.emit es).emit es') :=
    Keeps.of_model rfl rfl
  rw [heq]
  exact ⟨hshaped, hstanding, hall.keeps (hlast _ _ _)⟩

end Stage

end Tiling
