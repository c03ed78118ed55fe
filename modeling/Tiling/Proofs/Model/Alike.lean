import Tiling.Model.Windows
import Tiling.Proofs.Stack.Beside
/-!
# Stages that cannot be told apart

Two stages that differ in nothing but the slots of their stacks, which hold the same list, stay
so under every operation, and the operation has the same effects on both. Nothing is assumed of
the model otherwise: the nodes that an operation is given may be any.
-/

namespace Tiling.Stage

def withStack (s : Stage) (stack : Stack) : Stage := s.withModel { s.model with stack := stack }

/-- The stages have the same stacked leaves in the same order, and all else in common. -/
def Alike (s s' : Stage) : Prop :=
  ∃ l stack, s.model.stack.Holds l ∧ stack.Holds l ∧ s' = s.withStack stack

namespace Alike

variable {s s' : Stage}

/-! ## What is seen of a stage -/

/-- What is seen without the stack is the same. -/
theorem seen {α : Type} {g : Stage → α} (h : s.Alike s')
    (hg : ∀ stack, g (s.withStack stack) = g s) : g s' = g s := by
  obtain ⟨l, stack, -, -, rfl⟩ := h
  exact hg stack

theorem tree (h : s.Alike s') : s'.model.tree = s.model.tree :=
  h.seen (g := fun s => s.model.tree) fun _ => rfl

theorem focusedMonitor (h : s.Alike s') : s'.model.focusedMonitor = s.model.focusedMonitor :=
  h.seen (g := fun s => s.model.focusedMonitor) fun _ => rfl

theorem history (h : s.Alike s') : s'.history = s.history :=
  h.seen (g := Stage.history) fun _ => rfl

theorem locate? (h : s.Alike s') (n : NodeId) : s'.model.locate? n = s.model.locate? n :=
  h.seen (g := fun s => s.model.locate? n) fun _ => rfl

theorem monitor? (h : s.Alike s') (r : DesktopRef) : s'.model.monitor? r = s.model.monitor? r :=
  h.seen (g := fun s => s.model.monitor? r) fun _ => rfl

theorem desktop? (h : s.Alike s') (r : DesktopRef) : s'.model.desktop? r = s.model.desktop? r :=
  h.seen (g := fun s => s.model.desktop? r) fun _ => rfl

theorem focus? (h : s.Alike s') (r : DesktopRef) : s'.model.focus? r = s.model.focus? r :=
  h.seen (g := fun s => s.model.focus? r) fun _ => rfl

theorem isVisible (h : s.Alike s') (r : DesktopRef) :
    s'.model.isVisible r = s.model.isVisible r :=
  h.seen (g := fun s => s.model.isVisible r) fun _ => rfl

theorem focusedDesktop? (h : s.Alike s') :
    s'.model.focusedDesktop? = s.model.focusedDesktop? :=
  h.seen (g := fun s => s.model.focusedDesktop?) fun _ => rfl

theorem targetDesktop? (h : s.Alike s') (csq : Consequences) :
    s'.targetDesktop? csq = s.targetDesktop? csq :=
  h.seen (g := fun s => s.targetDesktop? csq) fun _ => rfl

theorem isDesktopFocus (h : s.Alike s') (r : DesktopRef) (n : NodeId) :
    s'.isDesktopFocus r n = s.isDesktopFocus r n :=
  h.seen (g := fun s => s.isDesktopFocus r n) fun _ => rfl

theorem windows (h : s.Alike s') (t : Tree) :
    s'.model.stack.windows t = s.model.stack.windows t := by
  obtain ⟨l, stack, hl, hstack, rfl⟩ := h
  rw [hl.windows_eq]
  exact hstack.windows_eq t

/-! ## Steps that do not see the stack -/

/-- A step that neither sees the stack nor changes it keeps stages alike. -/
theorem blind {f : Stage → Stage} (h : s.Alike s') (hstack : (f s).model.stack = s.model.stack)
    (hf : ∀ stack, f (s.withStack stack) = (f s).withStack stack) : (f s).Alike (f s') := by
  obtain ⟨l, stack, hl, hstack', rfl⟩ := h
  refine ⟨l, stack, ?_, hstack', hf stack⟩
  rw [hstack]
  exact hl

theorem emit (h : s.Alike s') (es : List Effect) : (s.emit es).Alike (s'.emit es) :=
  h.blind (f := fun s => s.emit es) rfl fun _ => rfl

theorem request (h : s.Alike s') (r : Request) : (s.request r).Alike (s'.request r) :=
  h.emit _

theorem announceAt (h : s.Alike s') (topic : Topic) (r : DesktopRef) (words : List String) :
    (s.announceAt topic r words).Alike (s'.announceAt topic r words) :=
  h.blind (f := fun s => s.announceAt topic r words) rfl fun _ => rfl

theorem publishReport (h : s.Alike s') : s.publishReport.Alike s'.publishReport :=
  h.blind (f := Stage.publishReport) rfl fun _ => rfl

theorem modifyTree (h : s.Alike s') (f : Tree → Tree) :
    (s.modifyTree f).Alike (s'.modifyTree f) :=
  h.blind (f := fun s => s.modifyTree f) rfl fun _ => rfl

theorem withTree (h : s.Alike s') (t : Tree) :
    (s.withModel { s.model with tree := t }).Alike (s'.withModel { s'.model with tree := t }) :=
  h.modifyTree fun _ => t

theorem modifyDesktop (h : s.Alike s') (r : DesktopRef) (f : Desktop → Desktop) :
    (s.withModel (s.model.modifyDesktop r f)).Alike
      (s'.withModel (s'.model.modifyDesktop r f)) :=
  h.blind (f := fun s => s.withModel (s.model.modifyDesktop r f)) rfl fun _ => rfl

theorem withSettings (h : s.Alike s') (new : Settings) :
    Alike { s with settings := new } { s' with settings := new } :=
  h.blind (f := fun s => { s with settings := new }) rfl fun _ => rfl

theorem forget (h : s.Alike s') : Alike { s with history := [] } { s' with history := [] } :=
  h.blind (f := fun s => { s with history := [] }) rfl fun _ => rfl

theorem applyLayout (h : s.Alike s') (r : DesktopRef) :
    (s.applyLayout r).Alike (s'.applyLayout r) := by
  unfold Stage.applyLayout
  rw [h.monitor?, h.desktop?]
  cases s.model.monitor? r with
  | none => exact h
  | some monitor =>
    cases s.model.desktop? r with
    | none => exact h
    | some desktop =>
      dsimp only
      rw [h.tree]
      exact (h.withTree _).emit _

theorem setMapped (h : s.Alike s') (r : DesktopRef) (mapped : Bool) :
    (s.setMapped r mapped).Alike (s'.setMapped r mapped) := by
  unfold Stage.setMapped
  rw [h.desktop?]
  cases s.model.desktop? r with
  | none => exact h
  | some desktop =>
    have hclients : s'.model.clientsOf desktop = s.model.clientsOf desktop :=
      h.seen (g := fun s => s.model.clientsOf desktop) fun _ => rfl
    dsimp only
    rw [hclients]
    exact h.emit _

theorem activate (h : s.Alike s') (r : DesktopRef) :
    (s.withModel (s.model.activate r)).Alike (s'.withModel (s'.model.activate r)) :=
  h.blind (f := fun s => s.withModel (s.model.activate r)) rfl fun _ => rfl

theorem switchTo (h : s.Alike s') (r : DesktopRef) (shown : Option Nat) :
    (s.switchTo r shown).Alike (s'.switchTo r shown) := by
  have hshow {u u' : Stage} (hu : u.Alike u') :
      (((u.withModel (u.model.activate r)).setMapped r true).announceAt .desktopActivate r []).Alike
        (((u'.withModel (u'.model.activate r)).setMapped r true).announceAt .desktopActivate r
          []) :=
    ((hu.activate r).setMapped r true).announceAt _ r _
  cases shown with
  | none => exact hshow h
  | some old => exact hshow (h.setMapped _ false)

theorem withFocus (h : s.Alike s') (monitor : Nat) :
    (s.withModel { s.model with focusedMonitor := monitor }).Alike
      (s'.withModel { s'.model with focusedMonitor := monitor }) :=
  h.blind (f := fun s => s.withModel { s.model with focusedMonitor := monitor }) rfl fun _ => rfl

theorem showDesktop (h : s.Alike s') (r : DesktopRef) :
    (s.showDesktop r).Alike (s'.showDesktop r) := by
  unfold Stage.showDesktop
  rw [h.monitor?]
  cases s.model.monitor? r with
  | none => exact h
  | some monitor =>
    have hshown : (if monitor.active = some r.desktop then s else s.switchTo r monitor.active).Alike
        (if monitor.active = some r.desktop then s' else s'.switchTo r monitor.active) := by
      split
      · exact h
      · exact h.switchTo r monitor.active
    dsimp only
    rw [hshown.focusedMonitor]
    generalize (if monitor.active = some r.desktop then s else s.switchTo r monitor.active) = u at *
    generalize (if monitor.active = some r.desktop then s' else s'.switchTo r monitor.active) = u'
      at *
    refine announceAt ?_ _ r _
    split
    · exact hshown
    · exact (hshown.withFocus r.monitor).emit _

theorem focusDesktop (h : s.Alike s') (r : DesktopRef) :
    (s.focusDesktop r).Alike (s'.focusDesktop r) := by
  have hshown := h.showDesktop r
  unfold Stage.focusDesktop
  dsimp only
  rw [hshown.focus?, hshown.tree]
  exact (hshown.request _).publishReport

theorem setLayout (h : s.Alike s') (r : DesktopRef) (layout : Layout) :
    (s.setLayout r layout).Alike (s'.setLayout r layout) := by
  unfold Stage.setLayout
  rw [h.desktop?]
  cases s.model.desktop? r with
  | none => exact h
  | some desktop =>
    dsimp only
    split
    · exact h
    · exact (((h.modifyDesktop r _).announceAt _ r _).applyLayout r).publishReport

theorem takePresel (h : s.Alike s') (n : NodeId) :
    (s.takePresel n).1.Alike (s'.takePresel n).1 ∧ (s'.takePresel n).2 = (s.takePresel n).2 := by
  unfold Stage.takePresel
  rw [h.tree]
  dsimp only
  refine ⟨?_, rfl⟩
  cases ((s.model.tree.get? n).bind Node.presel).bind Presel.feedback with
  | none => exact h.modifyTree _
  | some feedback => exact (h.modifyTree _).request _

theorem insertClient (h : s.Alike s') (r : DesktopRef) (d : Desktop) (client : Client)
    (csq : Consequences) :
    (s.insertClient r d client csq).1.Alike (s'.insertClient r d client csq).1 ∧
      (s'.insertClient r d client csq).2 = (s.insertClient r d client csq).2 := by
  unfold Stage.insertClient
  cases d.focus with
  | none =>
    dsimp only
    rw [h.tree]
    exact ⟨(h.withTree _).modifyDesktop r _, rfl⟩
  | some f =>
    obtain ⟨htaken, hpresel⟩ := h.takePresel f
    dsimp only
    rw [hpresel, htaken.tree]
    exact ⟨(htaken.withTree _).modifyDesktop r _, rfl⟩

theorem setFlag (h : s.Alike s') (n : NodeId) (flag : Flag) (value : Bool) :
    (s.setFlag n flag value).Alike (s'.setFlag n flag value) := by
  unfold Stage.setFlag
  rw [h.tree]
  cases s.model.tree.get? n with
  | none => exact h
  | some node =>
    dsimp only
    split
    · exact h
    have hset := h.modifyTree fun t =>
      t.modify n fun node => { node with flags := node.flags.set flag value }
    rw [hset.locate?]
    cases Model.locate? _ n with
    | none => exact hset
    | some r => exact (hset.announceAt _ r _).publishReport

theorem createFeedback (h : s.Alike s') (rect : Rect) :
    (s.createFeedback rect).1.Alike (s'.createFeedback rect).1 ∧
      (s'.createFeedback rect).2 = (s.createFeedback rect).2 := by
  constructor
  · exact h.blind (f := fun s => (s.createFeedback rect).1) rfl fun _ => rfl
  · exact h.seen (g := fun s => (s.createFeedback rect).2) fun _ => rfl

theorem choosePresel (h : s.Alike s') (r : DesktopRef) (n : NodeId) (rect : Rect)
    (dir : Direction) : (s.choosePresel r n rect dir).Alike (s'.choosePresel r n rect dir) := by
  unfold Stage.choosePresel
  rw [h.isVisible]
  cases s.model.isVisible r with
  | false => exact h.modifyTree _
  | true =>
    obtain ⟨hcreated, hgranted⟩ := h.createFeedback (rect.half dir)
    simp only [if_true]
    rw [hgranted]
    exact hcreated.modifyTree _

theorem configure (h : s.Alike s') (window : Window) (rect : Rect) :
    (s.configure window rect).Alike (s'.configure window rect) := by
  unfold Stage.configure
  rw [h.tree]
  cases s.model.tree.findWindow? window with
  | none => exact h.request _
  | some n =>
    dsimp only
    cases s.model.tree.get? n with
    | none => exact h
    | some node =>
      dsimp only
      rw [h.locate?]
      cases node.client.map Client.state with
      | none => exact h
      | some state =>
        cases state with
        | tiled => exact h.request _
        | pseudoTiled => exact h.request _
        | floating => exact (h.modifyTree _).request _
        | fullscreen =>
          have harea : (s.model.locate? n).bind s'.model.monitor? =
              (s.model.locate? n).bind s.model.monitor? := by rw [funext h.monitor?]
          dsimp only
          rw [harea]
          exact h.request _

theorem setUrgency (h : s.Alike s') (window : Window) (urgent : Bool) :
    (s.setUrgency window urgent).Alike (s'.setUrgency window urgent) := by
  unfold Stage.setUrgency
  rw [h.tree]
  cases s.model.tree.findWindow? window with
  | none => exact h
  | some n =>
    dsimp only
    cases s.model.tree.client? n with
    | none => exact h
    | some client =>
      dsimp only
      split
      · exact h
      · exact (h.modifyTree _).publishReport

/-! ## Steps that see the stack -/

theorem restack (h : s.Alike s') (n : NodeId) (promote : Bool) :
    (s.restack n promote).Alike (s'.restack n promote) := by
  obtain ⟨l, stack, hl, hstack, rfl⟩ := h
  obtain ⟨⟨l', hl', hstack'⟩, heffects⟩ := hl.restack_congr hstack s.model.tree
    ((s.model.locate? n).bind s.model.root?) n promote s.settings.autoRaise
  refine ⟨l', _, hl', hstack', ?_⟩
  have hemit : (s.withStack stack).restack n promote =
      (s.withStack (stack.restack s.model.tree ((s.model.locate? n).bind s.model.root?) n promote
        s.settings.autoRaise).1).emit (stack.restack s.model.tree
          ((s.model.locate? n).bind s.model.root?) n promote s.settings.autoRaise).2 := rfl
  rw [hemit, heffects]
  rfl

theorem raiseFeedback (h : s.Alike s') (r : DesktopRef) :
    (s.raiseFeedback r).Alike (s'.raiseFeedback r) := by
  obtain ⟨l, stack, hl, hstack, rfl⟩ := h
  refine ⟨l, stack, hl, hstack, ?_⟩
  have hemit : (s.withStack stack).raiseFeedback r =
      (s.withStack stack).emit (stack.raiseFeedback s.model.tree (s.model.root? r)) := rfl
  rw [hemit, hl.raiseFeedback_congr hstack]
  rfl

theorem removeClient (h : s.Alike s') (r : DesktopRef) (d : Desktop) (n : NodeId) :
    (s.removeClient r d n).Alike (s'.removeClient r d n) := by
  obtain ⟨l, stack, hl, hstack, rfl⟩ := h
  exact ⟨_, _, hl.remove s.model.tree n, hstack.remove s.model.tree n, rfl⟩

theorem focusNode (h : s.Alike s') (n : Option NodeId) :
    (s.focusNode n).Alike (s'.focusNode n) := by
  unfold Stage.focusNode
  cases n with
  | none => exact (h.request _).publishReport
  | some n =>
    dsimp only
    rw [h.locate?]
    cases s.model.locate? n with
    | none => exact h
    | some r =>
      dsimp only
      rw [h.focusedDesktop?]
      have hshown : (if s.model.focusedDesktop? = some r then s else s.showDesktop r).Alike
          (if s.model.focusedDesktop? = some r then s' else s'.showDesktop r) := by
        split
        · exact h
        · exact h.showDesktop r
      have hfocus := hshown.modifyDesktop r fun d => { d with focus := some n }
      rw [hfocus.tree]
      exact (((hfocus.request _).restack n true).announceAt _ r _).publishReport

theorem manage (h : s.Alike s') (w : Window) (named : WindowClass) (csq : Consequences) :
    (s.manage w named csq).1.Alike (s'.manage w named csq).1 ∧
      (s'.manage w named csq).2 = (s.manage w named csq).2 := by
  unfold Stage.manage
  rw [h.tree, h.targetDesktop?]
  split
  · exact ⟨h, rfl⟩
  cases s.targetDesktop? csq with
  | none => exact ⟨h.request _, rfl⟩
  | some r =>
    dsimp only
    rw [h.monitor?, h.desktop?]
    cases s.model.monitor? r with
    | none => exact ⟨h, rfl⟩
    | some monitor =>
      cases s.model.desktop? r with
      | none => exact ⟨h, rfl⟩
      | some desktop =>
        obtain ⟨hinserted, hn⟩ :=
          h.insertClient r desktop (newClient w named csq monitor.rect) csq
        dsimp only
        rw [hn, hinserted.tree]
        generalize (s.insertClient r desktop (newClient w named csq monitor.rect) csq).1 = u at *
        generalize (s'.insertClient r desktop (newClient w named csq monitor.rect) csq).1 = u' at *
        have hlaid := ((hinserted.announceAt .nodeAdd r
          [Numeral.hex8 ((desktop.focus.bind u.model.tree.window?).getD 0),
            Numeral.hex8 w]).request (.watch w)).applyLayout r
        rw [hlaid.isVisible]
        generalize Stage.applyLayout _ r = v at *
        generalize Stage.applyLayout _ r = v' at *
        have hmapped : (if v.model.isVisible r then v.request (.map w) else v).Alike
            (if v.model.isVisible r then v'.request (.map w) else v') := by
          split
          · exact hlaid.request _
          · exact hlaid
        have hplaced := hmapped.restack (s.insertClient r desktop
          (newClient w named csq monitor.rect) csq).2 true
        rw [hplaced.focusedDesktop?]
        generalize Stage.restack _ _ true = x at *
        generalize Stage.restack _ _ true = x' at *
        refine ⟨?_, rfl⟩
        split
        · exact hplaced.focusNode _
        · exact hplaced.publishReport

/-- The stacked windows are published. -/
theorem publishStack (h : s.Alike s') :
    (s.request (.clientList (s.model.stack.windows s.model.tree))).Alike
      (s'.request (.clientList (s'.model.stack.windows s'.model.tree))) := by
  rw [h.windows, h.tree]
  exact h.request _

theorem unmanage (h : s.Alike s') (w : Window) :
    (s.unmanage w).1.Alike (s'.unmanage w).1 ∧ (s'.unmanage w).2 = (s.unmanage w).2 := by
  -- both ways of removal end alike
  have hlast {u u' : Stage} (hu : u.Alike u') (c : Prop) [Decidable c] (r : DesktopRef) :
      (if c ∧ u.model.focusedDesktop? = some r then (u.focusNode (u.model.focus? r), true)
        else (u.publishReport, true)).1.Alike
          (if c ∧ u'.model.focusedDesktop? = some r then (u'.focusNode (u'.model.focus? r), true)
            else (u'.publishReport, true)).1 ∧
      (if c ∧ u'.model.focusedDesktop? = some r then (u'.focusNode (u'.model.focus? r), true)
          else (u'.publishReport, true)).2 =
        (if c ∧ u.model.focusedDesktop? = some r then (u.focusNode (u.model.focus? r), true)
          else (u.publishReport, true)).2 := by
    rw [hu.focusedDesktop?, hu.focus?]
    split
    · exact ⟨hu.focusNode _, rfl⟩
    · exact ⟨hu.publishReport, rfl⟩
  unfold Stage.unmanage
  rw [h.tree]
  cases s.model.tree.findWindow? w with
  | none => exact ⟨h, rfl⟩
  | some n =>
    dsimp only
    rw [h.locate?]
    cases s.model.locate? n with
    | none => exact ⟨h, rfl⟩
    | some r =>
      have htold := h.announceAt .nodeRemove r [Numeral.hex8 w]
      dsimp only
      rw [htold.tree]
      generalize s.announceAt .nodeRemove r [Numeral.hex8 w] = u at *
      generalize s'.announceAt .nodeRemove r [Numeral.hex8 w] = u' at *
      cases (u.model.tree.get? n).bind Node.feedback? with
      | none =>
        dsimp only
        rw [htold.desktop?]
        cases u.model.desktop? r with
        | none => exact ⟨htold, rfl⟩
        | some desktop =>
          exact hlast ((htold.removeClient r desktop n).applyLayout r).publishStack _ r
      | some feedback =>
        have hdestroyed := htold.request (.destroy feedback)
        dsimp only
        rw [hdestroyed.desktop?]
        cases Model.desktop? _ r with
        | none => exact ⟨hdestroyed, rfl⟩
        | some desktop =>
          exact hlast ((hdestroyed.removeClient r desktop n).applyLayout r).publishStack _ r

theorem setState (h : s.Alike s') (n : NodeId) (state : ClientState) :
    (s.setState n state).Alike (s'.setState n state) := by
  unfold Stage.setState
  rw [h.tree]
  cases s.model.tree.get? n with
  | none => exact h
  | some node =>
    dsimp only
    cases node.client with
    | none => exact h
    | some client =>
      dsimp only
      split
      · exact h
      have hchanged := h.modifyTree fun t => t.modifyClient n (changeState node.rect state)
      rw [hchanged.locate?]
      cases Model.locate? _ n with
      | none => exact hchanged
      | some r =>
        have hlaid := (((hchanged.announceAt .nodeState r [Numeral.hex8 client.window,
          client.state.word, onOff false]).announceAt .nodeState r [Numeral.hex8 client.window,
            state.word, onOff true]).applyLayout r)
        dsimp only
        rw [hlaid.isDesktopFocus]
        exact (hlaid.restack n _).publishReport

theorem setLayer (h : s.Alike s') (n : NodeId) (layer : Layer) :
    (s.setLayer n layer).Alike (s'.setLayer n layer) := by
  unfold Stage.setLayer
  rw [h.tree]
  cases s.model.tree.client? n with
  | none => exact h
  | some client =>
    dsimp only
    split
    · exact h
    have hchanged := h.modifyTree fun t => t.modifyClient n fun c => { c with layer := layer }
    rw [hchanged.locate?]
    cases Model.locate? _ n with
    | none => exact hchanged
    | some r =>
      have htold := hchanged.announceAt .nodeLayer r [Numeral.hex8 client.window, layer.word]
      dsimp only
      rw [htold.isDesktopFocus]
      exact htold.restack n _

theorem presel (h : s.Alike s') (n : NodeId) (dir : Option Direction) :
    (s.presel n dir).Alike (s'.presel n dir) := by
  unfold Stage.presel
  rw [h.locate?, h.tree]
  cases s.model.locate? n with
  | none => exact h
  | some r =>
    cases s.model.tree.get? n with
    | none => exact h
    | some node =>
      obtain ⟨htaken, -⟩ := h.takePresel n
      cases dir with
      | none => exact (htaken.announceAt _ r _).raiseFeedback r
      | some dir => exact ((htaken.choosePresel r n node.rect dir).announceAt _ r _).raiseFeedback r

end Alike

end Tiling.Stage
