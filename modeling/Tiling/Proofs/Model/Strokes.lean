import Mathlib.Logic.Relation
import Tiling.Model.Windows
/-!
# Strokes

The operations on windows that stay are made up of a few primitive strokes: a line for the
subscribers, a request to the display, an edit of one node or one desktop, a new layout, a
placement in the stack.  Each operation is taken apart here once.  What every stroke of some
kinds keeps, the operations of these kinds keep.
-/

namespace Tiling.Stage

/-- What a stroke changes or asks for. -/
inductive StrokeKind where
  | announce
  | report
  | configure
  | focus
  | map
  | destroy
  | grant
  | arrange
  | restack
  | raise
  | state
  | layer
  | urgency
  | float
  | flag
  | clear
  | mark
  | activate
  | monitor
  | choose
  | layout
  | settings
  deriving DecidableEq, Repr

/-- A stroke of some kind leads from `s` to another stage. -/
inductive Stroke (s : Stage) : StrokeKind → Stage → Prop where
  /-- A line that is neither a report nor about the stack. -/
  | announce {topic : Topic} (hreport : topic ≠ .report) (hstack : topic ≠ .nodeStack)
      (words : List String) : Stroke s .announce (s.announce topic words)
  | report : Stroke s .report s.publishReport
  | configure (w : Window) (rect : Rect) : Stroke s .configure (s.request (.configure w rect))
  | focus (w : Option Window) : Stroke s .focus (s.request (.focus w))
  | map (r : DesktopRef) (value : Bool) : Stroke s .map (s.setMapped r value)
  /-- The window that shows the preselection of a node goes. -/
  | destroy {n : NodeId} {w : Window} (h : (s.model.tree.get? n).bind Node.feedback? = some w) :
      Stroke s .destroy (s.request (.destroy w))
  | grant (rect : Rect) : Stroke s .grant (s.createFeedback rect).1
  | arrange (r : DesktopRef) : Stroke s .arrange (s.applyLayout r)
  | restack (n : NodeId) (promote : Bool) : Stroke s .restack (s.restack n promote)
  | raise (r : DesktopRef) : Stroke s .raise (s.raiseFeedback r)
  | state (n : NodeId) (rect : Rect) (state : ClientState) :
      Stroke s .state (s.modifyTree fun t => t.modifyClient n (changeState rect state))
  | layer (n : NodeId) (layer : Layer) :
      Stroke s .layer (s.modifyTree fun t => t.modifyClient n fun c => { c with layer := layer })
  | urgency (n : NodeId) (urgent : Bool) :
      Stroke s .urgency
        (s.modifyTree fun t => t.modifyClient n fun c => { c with urgent := urgent })
  | float (n : NodeId) (rect : Rect) :
      Stroke s .float
        (s.modifyTree fun t => t.modifyClient n fun c => { c with floatingRect := rect })
  | flag (n : NodeId) (flag : Flag) (value : Bool) :
      Stroke s .flag (s.modifyTree fun t =>
        t.modify n fun node => { node with flags := node.flags.set flag value })
  | clear (n : NodeId) :
      Stroke s .clear (s.modifyTree fun t => t.modify n fun node => { node with presel := none })
  /-- A preselection, with the window that was granted to show it. -/
  | mark (n : NodeId) (dir : Direction) {feedback : Option Window}
      (h : ∀ w, feedback = some w → ∃ k, s.feedbackIds.answer k = some w) :
      Stroke s .mark (s.modifyTree fun t =>
        t.modify n fun node => { node with presel := some ⟨dir, feedback⟩ })
  | activate (r : DesktopRef) : Stroke s .activate (s.withModel (s.model.activate r))
  | monitor {r : DesktopRef} (h : (s.model.monitor? r).isSome) :
      Stroke s .monitor (s.withModel { s.model with focusedMonitor := r.monitor })
  | choose (r : DesktopRef) (n : NodeId) :
      Stroke s .choose (s.withModel (s.model.modifyDesktop r fun d => { d with focus := some n }))
  | layout (r : DesktopRef) (layout : Layout) :
      Stroke s .layout (s.withModel (s.model.modifyDesktop r fun d => { d with layout := layout }))
  | settings (new : Settings) : Stroke s .settings { s with settings := new }

/-- From one stage to another by strokes of the given kinds. -/
def Path (kinds : List StrokeKind) : Stage → Stage → Prop :=
  Relation.ReflTransGen fun s s' => ∃ k ∈ kinds, s.Stroke k s'

namespace Path

variable {kinds kinds' : List StrokeKind} {k : StrokeKind} {s s' s'' : Stage}

theorem refl (s : Stage) : s.Path kinds s := Relation.ReflTransGen.refl

theorem trans (h : s.Path kinds s') (h' : s'.Path kinds s'') : s.Path kinds s'' :=
  Relation.ReflTransGen.trans h h'

theorem step (h : s.Path kinds s') (hk : k ∈ kinds) (hstroke : s'.Stroke k s'') :
    s.Path kinds s'' :=
  h.tail ⟨k, hk, hstroke⟩

theorem one (hk : k ∈ kinds) (h : s.Stroke k s') : s.Path kinds s' := (refl s).step hk h

theorem mono (h : s.Path kinds s') (hkinds : ∀ k ∈ kinds, k ∈ kinds') : s.Path kinds' s' :=
  Relation.ReflTransGen.mono (fun _ _ ⟨k, hk, hstroke⟩ => ⟨k, hkinds k hk, hstroke⟩) _ _ h

/-- A relation that the strokes of the accepted kinds keep is kept by paths of them. -/
theorem frame {R : Stage → Stage → Prop} {accepts : StrokeKind → Bool} (h : s.Path kinds s')
    (hkinds : kinds.all accepts = true) (hrefl : ∀ s, R s s)
    (htrans : ∀ {s s' s''}, R s s' → R s' s'' → R s s'')
    (hstroke : ∀ {k s s'}, accepts k = true → s.Stroke k s' → R s s') : R s s' := by
  induction h with
  | refl => exact hrefl s
  | tail _ hlast ih =>
    obtain ⟨k, hk, hstep⟩ := hlast
    exact htrans ih (hstroke (List.all_eq_true.1 hkinds k hk) hstep)

end Path

/-! ## Showing a desktop -/

/-- What is asked for when windows are mapped or unmapped. -/
def mappings (value : Bool) (ws : List Window) : List Effect :=
  ws.map fun w => .request (if value then .map w else .unmap w)

theorem setMapped_eq (s : Stage) (r : DesktopRef) (value : Bool) : s.setMapped r value =
    s.emit (mappings value (((s.model.desktop? r).toList.flatMap s.model.clientsOf).map
      Client.window)) := by
  unfold setMapped
  cases s.model.desktop? r with
  | none => rfl
  | some d =>
    simp only [Option.toList_some, List.flatMap_cons, List.flatMap_nil, List.append_nil, mappings,
      List.map_map]
    rw [requests, List.map_map]
    rfl

theorem model_setMapped (s : Stage) (r : DesktopRef) (mapped : Bool) :
    (s.setMapped r mapped).model = s.model := by
  unfold setMapped
  split <;> rfl

theorem model_switchTo (s : Stage) (r : DesktopRef) (shown : Option Nat) :
    (s.switchTo r shown).model = s.model.activate r := by
  have hmapped (u : Stage) (hu : u.model = s.model) :
      (((u.withModel (u.model.activate r)).setMapped r true).announceAt
        .desktopActivate r []).model = s.model.activate r := by
    show ((u.withModel (u.model.activate r)).setMapped r true).model = _
    rw [model_setMapped, ← hu]
    rfl
  cases shown with
  | none => exact hmapped s rfl
  | some old => exact hmapped _ (model_setMapped s _ false)

theorem path_switchTo (s : Stage) (r : DesktopRef) (shown : Option Nat) :
    s.Path [.map, .activate, .announce] (s.switchTo r shown) := by
  have hshow {u : Stage} (hu : s.Path [.map, .activate, .announce] u) :
      s.Path [.map, .activate, .announce]
        (((u.withModel (u.model.activate r)).setMapped r true).announceAt .desktopActivate r []) :=
    hu.step (by decide) (.activate r)
      |>.step (by decide) (.map r true)
      |>.step (by decide) (.announce (by decide) (by decide) _)
  cases shown with
  | none => exact hshow (Path.refl s)
  | some old => exact hshow (Path.one (by decide) (.map ⟨r.monitor, old⟩ false))

theorem path_showDesktop (s : Stage) (r : DesktopRef) :
    s.Path [.map, .activate, .announce, .monitor] (s.showDesktop r) := by
  unfold showDesktop
  cases hmonitor : s.model.monitor? r with
  | none => exact Path.refl s
  | some monitor =>
    obtain ⟨u, hu⟩ : ∃ u, u = if monitor.active = some r.desktop then s
        else s.switchTo r monitor.active := ⟨_, rfl⟩
    have hpath : s.Path [.map, .activate, .announce, .monitor] u := by
      rw [hu]
      split
      · exact Path.refl s
      · exact (path_switchTo s r monitor.active).mono (by decide)
    have hthere : (u.model.monitor? r).isSome := by
      rw [hu]
      split
      · rw [hmonitor, Option.isSome_some]
      · have hsame : (s.model.monitors[r.monitor]?).isSome := by
          rw [← Model.monitor?, hmonitor, Option.isSome_some]
        simpa [model_switchTo, Model.monitor?, Model.activate] using hsame
    dsimp only
    rw [← hu]
    refine Path.step ?_ (by decide) (.announce (by decide) (by decide) _)
    split
    · exact hpath
    · exact (hpath.step (by decide) (.monitor hthere)).step (by decide)
        (.announce (by decide) (by decide) _)

theorem path_focusDesktop (s : Stage) (r : DesktopRef) :
    s.Path [.map, .activate, .announce, .monitor, .focus, .report] (s.focusDesktop r) :=
  ((path_showDesktop s r).mono (by decide)).step (by decide) (.focus _)
    |>.step (by decide) .report

/-! ## The focus -/

/-- A leaf that is given the focus is about to be placed: its desktop is shown and has chosen
it. -/
def choose (s : Stage) (r : DesktopRef) (n : NodeId) : Stage :=
  let s := if s.model.focusedDesktop? = some r then s else s.showDesktop r
  let s := s.withModel (s.model.modifyDesktop r fun d => { d with focus := some n })
  s.request (.focus (s.model.tree.window? n))

theorem focusNode_eq {s : Stage} {n : NodeId} {r : DesktopRef} (h : s.model.locate? n = some r) :
    ∃ words, s.focusNode (some n) =
      (((s.choose r n).restack n true).announceAt .nodeFocus r words).publishReport := by
  simp only [focusNode, h]
  exact ⟨_, rfl⟩

theorem path_choose (s : Stage) (r : DesktopRef) (n : NodeId) :
    s.Path [.map, .activate, .announce, .monitor, .choose, .focus] (s.choose r n) := by
  have hshown : s.Path [.map, .activate, .announce, .monitor, .choose, .focus]
      (if s.model.focusedDesktop? = some r then s else s.showDesktop r) := by
    split
    · exact Path.refl s
    · exact (path_showDesktop s r).mono (by decide)
  exact (hshown.step (by decide) (.choose r n)).step (by decide) (.focus _)

/-- What follows once the leaf has been chosen. -/
theorem path_placed {s : Stage} {n : NodeId} {r : DesktopRef} (h : s.model.locate? n = some r) :
    (s.choose r n).Path [.restack, .announce, .report] (s.focusNode (some n)) := by
  obtain ⟨words, heq⟩ := focusNode_eq h
  rw [heq]
  exact (Path.one (by decide) (.restack n true)).step (by decide)
    (.announce (by decide) (by decide) _) |>.step (by decide) .report

theorem path_focusNode (s : Stage) (n : Option NodeId) :
    s.Path [.map, .activate, .announce, .monitor, .choose, .focus, .restack, .report]
      (s.focusNode n) := by
  cases n with
  | none => exact (Path.one (by decide) (.focus none)).step (by decide) .report
  | some n =>
    cases hr : s.model.locate? n with
    | none =>
      rw [focusNode, hr]
      exact Path.refl s
    | some r =>
      exact ((path_choose s r n).mono (by decide)).trans ((path_placed hr).mono (by decide))

/-! ## Changes of a window -/

theorem path_setState (s : Stage) (n : NodeId) (state : ClientState) :
    s.Path [.state, .announce, .arrange, .restack, .report] (s.setState n state) := by
  unfold setState
  split
  · exact Path.refl s
  split
  · exact Path.refl s
  split
  · exact Path.refl s
  dsimp only
  split
  · exact Path.one (by decide) (.state n _ state)
  · exact Path.one (by decide) (.state n _ state)
      |>.step (by decide) (.announce (by decide) (by decide) _)
      |>.step (by decide) (.announce (by decide) (by decide) _)
      |>.step (by decide) (.arrange _)
      |>.step (by decide) (.restack n _)
      |>.step (by decide) .report

theorem path_setLayer (s : Stage) (n : NodeId) (layer : Layer) :
    s.Path [.layer, .announce, .restack] (s.setLayer n layer) := by
  unfold setLayer
  split
  · exact Path.refl s
  split
  · exact Path.refl s
  dsimp only
  split
  · exact Path.one (by decide) (.layer n layer)
  · exact Path.one (by decide) (.layer n layer)
      |>.step (by decide) (.announce (by decide) (by decide) _)
      |>.step (by decide) (.restack n _)

theorem path_setFlag (s : Stage) (n : NodeId) (flag : Flag) (value : Bool) :
    s.Path [.flag, .announce, .report] (s.setFlag n flag value) := by
  unfold setFlag
  split
  · exact Path.refl s
  split
  · exact Path.refl s
  dsimp only
  split
  · exact Path.one (by decide) (.flag n flag value)
  · exact Path.one (by decide) (.flag n flag value)
      |>.step (by decide) (.announce (by decide) (by decide) _)
      |>.step (by decide) .report

theorem path_setUrgency (s : Stage) (window : Window) (urgent : Bool) :
    s.Path [.urgency, .report] (s.setUrgency window urgent) := by
  unfold setUrgency
  split
  · exact Path.refl s
  split
  · exact Path.refl s
  split
  · exact Path.refl s
  · exact (Path.one (by decide) (.urgency _ urgent)).step (by decide) .report

theorem path_configure (s : Stage) (window : Window) (rect : Rect) :
    s.Path [.float, .configure] (s.configure window rect) := by
  have hanswer (place : Rect) : s.Path [.float, .configure] (s.request (.configure window place)) :=
    Path.one (by decide) (.configure window place)
  unfold configure
  split
  · exact hanswer _
  split
  · exact Path.refl s
  split
  · exact Path.refl s
  · exact (Path.one (by decide) (.float _ rect)).step (by decide) (.configure window rect)
  · exact hanswer _
  · exact hanswer _
  · exact hanswer _

theorem path_setLayout (s : Stage) (r : DesktopRef) (layout : Layout) :
    s.Path [.layout, .announce, .arrange, .report] (s.setLayout r layout) := by
  unfold setLayout
  split
  · exact Path.refl s
  split
  · exact Path.refl s
  · exact Path.one (by decide) (.layout r layout)
      |>.step (by decide) (.announce (by decide) (by decide) _)
      |>.step (by decide) (.arrange r)
      |>.step (by decide) .report

/-! ## Preselections -/

/-- The window that shows the preselection goes while it is still noted down. -/
theorem path_takePresel (s : Stage) (n : NodeId) :
    s.Path [.destroy, .clear] (s.takePresel n).1 := by
  unfold takePresel
  dsimp only
  split
  · rename_i w hw
    have hshown : (s.model.tree.get? n).bind Node.feedback? = some w := by
      rw [← hw, Option.bind_assoc]
      rfl
    exact (Path.one (by decide) (.destroy hshown)).step (by decide) (.clear n)
  · exact Path.one (by decide) (.clear n)

theorem path_choosePresel (s : Stage) (r : DesktopRef) (n : NodeId) (rect : Rect)
    (dir : Direction) : s.Path [.grant, .mark] (s.choosePresel r n rect dir) := by
  unfold choosePresel
  cases s.model.isVisible r with
  | false => exact Path.one (by decide) (.mark n dir fun w hw => by cases hw)
  | true =>
    refine (Path.one (by decide) (.grant (rect.half dir))).step (by decide) (.mark n dir ?_)
    intro w hw
    exact ⟨_, hw⟩

theorem path_presel (s : Stage) (n : NodeId) (dir : Option Direction) :
    s.Path [.destroy, .clear, .grant, .mark, .announce, .raise] (s.presel n dir) := by
  have hlast {u : Stage} (hu : s.Path [.destroy, .clear, .grant, .mark, .announce, .raise] u)
      (r : DesktopRef) (words : List String) :
      s.Path [.destroy, .clear, .grant, .mark, .announce, .raise]
        ((u.announceAt .nodePresel r words).raiseFeedback r) :=
    (hu.step (by decide) (.announce (by decide) (by decide) _)).step (by decide) (.raise r)
  unfold presel
  split
  · have htaken : s.Path [.destroy, .clear, .grant, .mark, .announce, .raise] (s.takePresel n).1 :=
      (path_takePresel s n).mono (by decide)
    cases dir with
    | none => exact hlast htaken _ _
    | some dir =>
      exact hlast (htaken.trans ((path_choosePresel _ _ n _ dir).mono (by decide))) _ _
  · exact Path.refl s

end Tiling.Stage
