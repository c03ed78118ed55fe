import Tiling.Proofs.Model.InputFocus
import Tiling.Proofs.Model.Mapping
import Tiling.Proofs.Model.Stacking
import Tiling.Proofs.Stack.Levels
/-!
# Bringing a window to the fore

A window that is given the focus has its desktop shown, with all windows of it, on a monitor
that has the focus; it has the input focus and stands in front of everything of its level.
Nothing else changes: not the tree, no layout, no other desktop, no other monitor, and not the
order of the other windows.
-/

namespace Tiling

namespace Model

variable {m : Model} {r r' : DesktopRef} {n : NodeId} {monitor : Monitor}

/-- A desktop is shown on its monitor, which has the focus, and a node is the focus of it. -/
def front (m : Model) (r : DesktopRef) (n : NodeId) : Model :=
  { (m.activate r).modifyDesktop r fun d => { d with focus := some n } with
    focusedMonitor := r.monitor }

theorem activate_of_shown (hmonitor : m.monitor? r = some monitor)
    (hactive : monitor.active = some r.desktop) : m.activate r = m := by
  have hsame : m.monitors.modify r.monitor (fun monitor =>
      { monitor with active := some r.desktop }) = m.monitors := by
    refine List.ext_getElem? fun i => ?_
    rw [List.getElem?_modify]
    split
    · rename_i hi
      rw [← hi, ← monitor?, hmonitor, ← hactive]
      rfl
    · exact id_map _
  rw [activate, hsame]

theorem desktop?_activate (m : Model) (r r' : DesktopRef) :
    (m.activate r).desktop? r' = m.desktop? r' := by
  simp only [desktop?, monitor?, activate, List.getElem?_modify]
  cases m.monitors[r'.monitor]? with
  | none => rfl
  | some monitor =>
    simp only [Option.map_eq_map, Option.map_some, Option.bind_some]
    split <;> rfl

theorem isVisible_front (hmonitor : m.monitor? r = some monitor) :
    (m.front r n).isVisible r = true := by
  have hshown : (m.front r n).isVisible r = (m.activate r).isVisible r :=
    isVisible_congr (shown_modifyDesktop (m.activate r) r _) r
  rw [hshown, isVisible_activate hmonitor, if_pos rfl, beq_self_eq_true]

theorem desktop?_front (m : Model) (r : DesktopRef) (n : NodeId) :
    (m.front r n).desktop? r = (m.desktop? r).map fun d => { d with focus := some n } := by
  rw [← desktop?_activate m r r]
  exact desktop?_modifyDesktop (m.activate r) r _

theorem desktop?_front_other (m : Model) (n : NodeId) (hne : r ≠ r') :
    (m.front r n).desktop? r' = m.desktop? r' := by
  rw [← desktop?_activate m r r']
  exact desktop?_modifyDesktop_other (m.activate r) hne _

theorem monitors_front_other (m : Model) (n : NodeId) {i : Nat} (hne : i ≠ r.monitor) :
    (m.front r n).monitors[i]? = m.monitors[i]? := by
  have hother (f : Monitor → Monitor) (l : List Monitor) : (l.modify r.monitor f)[i]? = l[i]? :=
    List.getElem?_modify_ne f l (Ne.symm hne)
  exact (hother _ _).trans (hother _ _)

end Model

namespace Stage

variable {s : Stage} {r : DesktopRef} {n : NodeId} {monitor : Monitor}

theorem model_showDesktop (hmonitor : s.model.monitor? r = some monitor) :
    (s.showDesktop r).model = { s.model.activate r with focusedMonitor := r.monitor } := by
  have hfocused (u : Stage) : ((if u.model.focusedMonitor = r.monitor then u
      else (u.withModel { u.model with focusedMonitor := r.monitor }).announce .monitorFocus
        [Numeral.hex8 monitor.id]).announceAt .desktopFocus r []).model =
        { u.model with focusedMonitor := r.monitor } := by
    split
    · rename_i heq
      rw [← heq]
      rfl
    · rfl
  unfold showDesktop
  rw [hmonitor]
  dsimp only
  rw [hfocused]
  by_cases hactive : monitor.active = some r.desktop
  · rw [if_pos hactive, Model.activate_of_shown hmonitor hactive]
  · rw [if_neg hactive, model_switchTo]

theorem model_choose (hmonitor : s.model.monitor? r = some monitor) (n : NodeId) :
    (s.choose r n).model = s.model.front r n := by
  unfold choose
  by_cases hfocused : s.model.focusedDesktop? = some r
  · rw [if_pos hfocused]
    obtain ⟨i, hi, rfl⟩ := Option.map_eq_some_iff.1 hfocused
    obtain ⟨monitor', hmonitor', hactive⟩ := Option.bind_eq_some_iff.1 hi
    obtain rfl : monitor' = monitor := Option.some.inj (hmonitor'.symm.trans hmonitor)
    rw [Model.front, Model.activate_of_shown hmonitor hactive]
    rfl
  · rw [if_neg hfocused]
    show (s.showDesktop r).model.modifyDesktop r _ = _
    rw [model_showDesktop hmonitor]
    rfl

/-- A node that is given the focus changes the model as said by `front`, and the stack. -/
theorem exists_model_focusNode (hlocate : s.model.locate? n = some r)
    (hmonitor : s.model.monitor? r = some monitor) :
    ∃ stack, (s.focusNode (some n)).model = { s.model.front r n with stack := stack } := by
  obtain ⟨words, heq⟩ := focusNode_eq hlocate
  refine ⟨(s.focusNode (some n)).model.stack, ?_⟩
  rw [← model_choose hmonitor, heq]
  rfl

/-- From `s` to `s'` the window of a leaf, found on the desktop `d` at `r`, comes to the fore;
`mapped` holds the windows that are mapped then. -/
structure Foregrounds (s s' : Stage) (mapped : Finset Window) (n : NodeId) (w : Window)
    (r : DesktopRef) (d : Desktop) : Prop where
  shown : s'.model.isVisible r = true
  monitor : s'.model.focusedMonitor = r.monitor
  focused : s'.model.focusedNode? = some n
  asked : s'.inputFocus = some w
  mapped : ∀ v, s'.model.home? v = some r → v ∈ mapped
  /-- All leaves of higher levels are nearer the front, and no other ones. -/
  foremost : ∃ left right, s'.model.stack.toList = left ++ n :: right ∧
    (∀ m ∈ left, s'.model.tree.level m ≤ s'.model.tree.level n) ∧
      ∀ m ∈ right, s'.model.tree.level n < s'.model.tree.level m
  tree : s'.model.tree = s.model.tree
  chosen : s'.model.desktop? r = some { d with focus := some n }
  otherDesktops : ∀ r', r' ≠ r → s'.model.desktop? r' = s.model.desktop? r'
  otherMonitors : ∀ i, i ≠ r.monitor → s'.model.monitors[i]? = s.model.monitors[i]?
  otherLeaves : s'.model.stack.toList.erase n = s.model.stack.toList.erase n

/-- The placement of a leaf among others that ascend. -/
theorem stack_focusNode (hs : s.model.Sound) (hon : s.settings.autoRaise = true)
    (hcomplete : s.model.Complete) (hn : (s.model.tree.client? n).isSome)
    (htree : (s.focusNode (some n)).model.tree = s.model.tree) :
    (s.focusNode (some n)).model.stack.toList =
        Stack.inPlace s.model.tree.level true n (s.model.stack.toList.erase n) ∧
      (s.focusNode (some n)).model.stack.toList.erase n = s.model.stack.toList.erase n := by
  obtain ⟨shapes, h⟩ := hs
  obtain ⟨-, -, hevolves⟩ := focusNode_spec h hn
  obtain ⟨l, l', hl, hl', -, hrearranges⟩ := hevolves.exists_lists ⟨shapes, h⟩
  have hmoves : Stack.Moves (s.focusNode (some n)).model.tree
    (s.focusNode (some n)).settings.autoRaise n true l l' := hrearranges
  have hsettles := hmoves.settled fun _ => by rw [hevolves.settings, hon]
  have hascends : Stack.Ascends s.model.tree.level (l.erase n) := by
    have hall := hcomplete.ascends
    rw [hl.toList_eq] at hall
    exact hall.sublist List.erase_sublist
  rw [htree] at hsettles
  rw [hl'.toList_eq, hl.toList_eq]
  exact ⟨hsettles.eq_inPlace hascends, hsettles.erase hl.1.not_mem_erase⟩

/-- In a stack that is ordered by level a leaf that is given the focus comes to the fore. -/
theorem foregrounds_focusNode (hs : s.model.Sound) (hon : s.settings.autoRaise = true)
    (hcomplete : s.model.Complete) {mapped : Finset Window}
    (hmapped : ∀ v, (s.focusNode (some n)).model.shows v = true → v ∈ mapped) {w : Window}
    (hn : s.model.tree.window? n = some w) {d : Desktop} (hlocate : s.model.locate? n = some r)
    (hd : s.model.desktop? r = some d) :
    s.Foregrounds (s.focusNode (some n)) mapped n w r d := by
  obtain ⟨monitor, hmonitor, -⟩ := Model.exists_of_desktop? hd
  have hclient : (s.model.tree.client? n).isSome := by
    rw [← Model.isSome_window?, hn, Option.isSome_some]
  have hfocused := focusedNode?_focusNode hlocate hd
  have hasked := (refocuses_focusNode hs hclient).focused
  have hstack := stack_focusNode hs hon hcomplete hclient
  -- all of the model but the stack is read off `front`
  obtain ⟨stack, hmodel⟩ := exists_model_focusNode hlocate hmonitor
  have htree : (s.focusNode (some n)).model.tree = s.model.tree := by rw [hmodel]; rfl
  have hmonitors : (s.focusNode (some n)).model.monitors = (s.model.front r n).monitors := by
    rw [hmodel]
  have hdesktop (r' : DesktopRef) :
      (s.focusNode (some n)).model.desktop? r' = (s.model.front r n).desktop? r' := by
    rw [hmodel]
    rfl
  have hshown : (s.focusNode (some n)).model.isVisible r = true := by
    rw [hmodel]
    exact Model.isVisible_front hmonitor
  refine ⟨hshown, by rw [hmodel]; rfl, hfocused, ?_,
    fun v hv => hmapped v ((Model.shows_of_home? hv).trans hshown), ?_, htree, ?_,
    fun r' hr' => ?_, fun i hi => ?_, (hstack htree).2⟩
  · rw [hasked, Model.focusedWindow?, hfocused, Option.bind_some, htree, hn]
  · rw [htree, (hstack htree).1, Stack.inPlace, if_pos rfl]
    exact ⟨_, _, rfl, fun m hm => of_decide_eq_true (List.mem_filter.1 hm).2,
      fun m hm => of_decide_eq_true (List.mem_filter.1 hm).2⟩
  · rw [hdesktop, Model.desktop?_front, hd, Option.map_some]
  · rw [hdesktop, Model.desktop?_front_other _ _ hr'.symm]
  · rw [hmonitors, Model.monitors_front_other _ _ hi]

theorem autoRaise_run (hs : s.model.Sound) (hon : s.settings.autoRaise = true)
    {ops : List Operation} (hops : ∀ new, .settings new ∈ ops → new.autoRaise = true) :
    (s.run ops).settings.autoRaise = true := by
  induction ops generalizing s with
  | nil => exact hon
  | cons op ops ih =>
    have hon' := autoRaise_perform hs hon fun new hop => hops new (hop ▸ List.mem_cons_self)
    exact ih (perform_spec hs op).1 hon' fun new hnew => hops new (List.mem_cons_of_mem op hnew)

/-- After any operations with automatic raising on throughout, a managed window that is given the
focus comes to the fore and all else stays as it was. -/
theorem foregrounds_run (outputs : List (String × Rect)) (names : List String)
    (settings : Settings) (ids : FeedbackIds) (ops : List Operation)
    (hon : settings.autoRaise = true)
    (hops : ∀ new, .settings new ∈ ops → new.autoRaise = true) (w : Window)
    (hw : ((fresh outputs names settings ids).run ops).model.Manages w) :
    ∃ n r d, ((fresh outputs names settings ids).run ops).model.tree.findWindow? w = some n ∧
      ((fresh outputs names settings ids).run ops).model.locate? n = some r ∧
      ((fresh outputs names settings ids).run ops).model.desktop? r = some d ∧
      ((fresh outputs names settings ids).run ops).Foregrounds
        (((fresh outputs names settings ids).run ops).perform (.focus (.window w)))
        ((fresh outputs names settings ids).tracked ∅ (ops ++ [.focus (.window w)])) n w r d := by
  have hfresh := sound_fresh outputs names settings ids
  have hmapped (v : Window) := (mem_tracked_iff hfresh
    (Model.isBlank_fresh outputs names).not_manages (ops ++ [.focus (.window w)]) v).2
  rw [run_append] at hmapped
  have hs := sound_run hfresh ops
  have hraise := autoRaise_run hfresh hon hops
  have hcomplete := complete_run hfresh hon (complete_fresh outputs names) hops
  generalize (fresh outputs names settings ids).run ops = s at *
  generalize (fresh outputs names settings ids).tracked ∅ _ = mapped at *
  obtain ⟨n, hn⟩ := Option.isSome_iff_exists.1 hw
  have hwindow := Tree.window?_of_findWindow hn
  obtain ⟨r, d, hlocate, hd⟩ := locate_client hs (n := n) (by
    rw [← Model.isSome_window?, hwindow, Option.isSome_some])
  have hfocus : s.perform (.focus (.window w)) = s.focusNode (some n) := by
    simp only [perform, onTarget, Target.node?, hn]
  refine ⟨n, r, d, hn, hlocate, hd, ?_⟩
  rw [hfocus]
  have hshown (v : Window) (hv : (s.focusNode (some n)).model.shows v = true) : v ∈ mapped := by
    refine hmapped v (.inl ?_)
    rw [← hv, ← hfocus]
    rfl
  exact foregrounds_focusNode hs hraise hcomplete hshown hwindow hlocate hd

/-- Two monitors with two desktops each. -/
def twoByTwo : Stage :=
  fresh [("left", ⟨0, 0, 640, 480⟩), ("right", ⟨640, 0, 640, 480⟩)] ["I", "II"] .standard
    .unavailable

/-- Windows 2 and 3 are on a desktop that its monitor does not show, window 2 behind window 3. -/
def hiddenPair : List Operation :=
  [.manage 1 .unknown .standard, .focusDesktop ⟨1, 0⟩, .manage 2 .unknown .standard,
    .manage 3 .unknown .standard, .focusDesktop ⟨1, 1⟩, .manage 4 .unknown .standard,
    .focusDesktop ⟨0, 0⟩]

/-- Window 2 comes to the fore, window 3 is mapped with it, and window 4 is not mapped any more. -/
theorem foregrounds_hiddenPair :
    (twoByTwo.run hiddenPair).model.isVisible ⟨1, 0⟩ = false ∧
      (twoByTwo.run hiddenPair).inputFocus = some 1 ∧
      ∃ d, (twoByTwo.run hiddenPair).Foregrounds
        ((twoByTwo.run hiddenPair).perform (.focus (.window 2))) {1, 2, 3} ⟨1⟩ 2 ⟨1, 0⟩ d := by
  refine ⟨by decide +kernel, by decide +kernel, ?_⟩
  obtain ⟨n, r, d, hn, hlocate, -, h⟩ := foregrounds_run
    [("left", ⟨0, 0, 640, 480⟩), ("right", ⟨640, 0, 640, 480⟩)] ["I", "II"] .standard .unavailable
    hiddenPair rfl (fun new hnew => by simp [hiddenPair] at hnew) 2 (by decide +kernel)
  have hfound : (twoByTwo.run hiddenPair).model.tree.findWindow? 2 = some ⟨1⟩ := by decide +kernel
  have hhome : (twoByTwo.run hiddenPair).model.locate? ⟨1⟩ = some ⟨1, 0⟩ := by decide +kernel
  have hmapped : twoByTwo.tracked ∅ (hiddenPair ++ [.focus (.window 2)]) = {1, 2, 3} := by
    decide +kernel
  obtain rfl : ⟨1⟩ = n := Option.some.inj (hfound.symm.trans hn)
  obtain rfl : ⟨1, 0⟩ = r := Option.some.inj (hhome.symm.trans hlocate)
  exact ⟨d, hmapped ▸ h⟩

end Stage

end Tiling
