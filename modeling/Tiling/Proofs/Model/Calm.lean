import Tiling.Proofs.Model.Quiet
/-!
# Calm steps

Few steps map a window or unmap one, show another desktop or ask for the input focus.  The others
are calm; apart from the desktop that they edit they also leave the focus of every desktop alone.
-/

namespace Tiling

namespace Effect

/-- The effect maps a window or unmaps one. -/
def isMapping : Effect → Bool
  | .request (.map _) | .request (.unmap _) => true
  | _ => false

/-- The window that is given the input focus, or none, if the effect asks for either. -/
def focuses? : Effect → Option (Option Window)
  | .request (.focus w) => some w
  | _ => none

def Discreet (e : Effect) : Prop := e.isMapping = false ∧ e.focuses? = none

end Effect

theorem Stack.PlacementEffect.discreet {e : Effect} (h : Stack.PlacementEffect e) : e.Discreet := by
  cases h with
  | beside relation w other => cases relation <;> exact ⟨rfl, rfl⟩
  | told => exact ⟨rfl, rfl⟩
  | listed => exact ⟨rfl, rfl⟩

namespace Model

/-- The desktop that each monitor shows. -/
def shown (m : Model) : List (Option Nat) := m.monitors.map Monitor.active

theorem shown_modifyDesktop (m : Model) (r : DesktopRef) (f : Desktop → Desktop) :
    (m.modifyDesktop r f).shown = m.shown := by
  unfold shown modifyDesktop
  exact map_modify_of (by intro x; rfl) m.monitors r.monitor

theorem isVisible_eq (m : Model) (r : DesktopRef) :
    m.isVisible r = m.shown[r.monitor]?.any (· == some r.desktop) := by
  rw [isVisible, shown, monitor?, List.getElem?_map]
  cases m.monitors[r.monitor]? <;> rfl

theorem isVisible_congr {m m' : Model} (h : m'.shown = m.shown) (r : DesktopRef) :
    m'.isVisible r = m.isVisible r := by
  rw [isVisible_eq, h, ← isVisible_eq]

theorem focusedDesktop?_congr {m m' : Model} (h : m'.shown = m.shown)
    (hfocused : m'.focusedMonitor = m.focusedMonitor) :
    m'.focusedDesktop? = m.focusedDesktop? := by
  have hview (m : Model) : m.focusedDesktop? =
      m.shown[m.focusedMonitor]?.join.map fun i => ⟨m.focusedMonitor, i⟩ := by
    rw [focusedDesktop?, shown, List.getElem?_map]
    cases m.monitors[m.focusedMonitor]? <;> rfl
  rw [hview, h, hfocused, ← hview]

theorem desktop?_modifyDesktop_other (m : Model) {r r' : DesktopRef} (hne : r ≠ r')
    (f : Desktop → Desktop) : (m.modifyDesktop r f).desktop? r' = m.desktop? r' := by
  simp only [desktop?, monitor?, modifyDesktop, List.getElem?_modify]
  cases m.monitors[r'.monitor]? with
  | none => rfl
  | some x =>
    simp only [Option.map_eq_map, Option.map_some, Option.bind_some]
    by_cases hmonitor : r.monitor = r'.monitor
    · have hdesktop : r.desktop ≠ r'.desktop := by
        intro heq
        apply hne
        cases r
        cases r'
        simp_all
      rw [if_pos hmonitor]
      simp only [List.getElem?_modify, if_neg hdesktop, Option.map_eq_map, Option.map_id']
    · rw [if_neg hmonitor]

end Model

namespace Stage

/-- What has happened since `s`, in its order. -/
def since (s s' : Stage) : List Effect := s'.effects.drop s.effects.length

theorem since_eq {s s' : Stage} {es : List Effect} (h : s'.history = es ++ s.history) :
    s.since s' = es.reverse := by
  rw [since, effects, effects, h, List.reverse_append, List.drop_left]

/-- Strokes of these kinds map nothing, show nothing and do not ask for the input focus. -/
def StrokeKind.isCalm : StrokeKind → Bool
  | .focus | .map | .activate | .monitor | .choose | .settings => false
  | _ => true

/-- From `s` to `s'` nothing is mapped, shown or given the input focus, no desktop comes or
goes, at most the one that is edited has another focus, and the settings stay. -/
structure Calm (edited : Option DesktopRef) (s s' : Stage) : Prop where
  history : ∃ es, s'.history = es ++ s.history ∧ ∀ e ∈ es, e.Discreet
  shown : s'.model.shown = s.model.shown
  focused : s'.model.focusedMonitor = s.model.focusedMonitor
  focus : ∀ r, edited ≠ some r → s'.model.focus? r = s.model.focus? r
  desktop : ∀ r, (s'.model.desktop? r).isSome = (s.model.desktop? r).isSome
  settings : s'.settings = s.settings

namespace Calm

variable {edited : Option DesktopRef} {s s' s'' : Stage}

theorem refl (s : Stage) : Calm edited s s where
  history := ⟨[], rfl, by simp⟩
  shown := rfl
  focused := rfl
  focus _ _ := rfl
  desktop _ := rfl
  settings := rfl

theorem trans (h : Calm edited s s') (h' : Calm edited s' s'') : Calm edited s s'' where
  history := history_trans h.history h'.history
  shown := h'.shown.trans h.shown
  focused := h'.focused.trans h.focused
  focus r hr := (h'.focus r hr).trans (h.focus r hr)
  desktop r := (h'.desktop r).trans (h.desktop r)
  settings := h'.settings.trans h.settings

theorem isVisible (h : Calm edited s s') (r : DesktopRef) :
    s'.model.isVisible r = s.model.isVisible r :=
  Model.isVisible_congr h.shown r

theorem unfocused (h : Calm edited s s') :
    ∃ es, s'.history = es ++ s.history ∧ ∀ e ∈ es, e.focuses? = none := by
  obtain ⟨es, hes, hdiscreet⟩ := h.history
  exact ⟨es, hes, fun e he => (hdiscreet e he).2⟩

theorem focusedDesktop? (h : Calm edited s s') :
    s'.model.focusedDesktop? = s.model.focusedDesktop? :=
  Model.focusedDesktop?_congr h.shown h.focused

/-! ## Steps -/

theorem emit (s : Stage) {es : List Effect} (h : ∀ e ∈ es, e.Discreet) :
    Calm edited s (s.emit es) where
  history := ⟨es.reverse, rfl, fun e he => h e (List.mem_reverse.1 he)⟩
  shown := rfl
  focused := rfl
  focus _ _ := rfl
  desktop _ := rfl
  settings := rfl

theorem request (s : Stage) {r : Request} (h : (Effect.request r).Discreet) :
    Calm edited s (s.request r) :=
  emit s fun e he => by rwa [List.mem_singleton.1 he]

theorem announce (s : Stage) (topic : Topic) (words : List String) :
    Calm edited s (s.announce topic words) :=
  emit s fun e he => by
    rw [List.mem_singleton.1 he]
    exact ⟨rfl, rfl⟩

theorem announceAt (s : Stage) (topic : Topic) (r : DesktopRef) (words : List String) :
    Calm edited s (s.announceAt topic r words) :=
  announce s topic _

theorem publishReport (s : Stage) : Calm edited s s.publishReport :=
  emit s fun e he => by
    rw [List.mem_singleton.1 he]
    exact ⟨rfl, rfl⟩

theorem modifyTree (s : Stage) (f : Tree → Tree) : Calm edited s (s.modifyTree f) where
  history := ⟨[], rfl, by simp⟩
  shown := rfl
  focused := rfl
  focus _ _ := rfl
  desktop _ := rfl
  settings := rfl

theorem applyLayout (s : Stage) (r : DesktopRef) : Calm edited s (s.applyLayout r) := by
  unfold Stage.applyLayout
  split
  · rename_i monitor d hmonitor hd
    refine trans (modifyTree s fun t => (t.arrange d.root monitor.rect d.layout).1) (emit _ ?_)
    intro e he
    obtain ⟨request, hrequest, rfl⟩ := List.mem_map.1 he
    obtain ⟨place, -, rfl⟩ := List.mem_map.1 hrequest
    exact ⟨rfl, rfl⟩
  · exact refl s

theorem restack (s : Stage) (n : NodeId) (promote : Bool) :
    Calm edited s (s.restack n promote) where
  history := by
    refine ⟨_, rfl, ?_⟩
    intro e he
    exact (Stack.mem_restack (List.mem_reverse.1 he)).discreet
  shown := rfl
  focused := rfl
  focus _ _ := rfl
  desktop _ := rfl
  settings := rfl

theorem createFeedback (s : Stage) (rect : Rect) : Calm edited s (s.createFeedback rect).1 where
  history := by
    refine ⟨[_], rfl, ?_⟩
    intro e he
    rw [List.mem_singleton.1 he]
    exact ⟨rfl, rfl⟩
  shown := rfl
  focused := rfl
  focus _ _ := rfl
  desktop _ := rfl
  settings := rfl

/-! ## Changes of one desktop -/

theorem modifyDesktop (s : Stage) {m : Model} (hmonitors : m.monitors = s.model.monitors)
    (hfocused : m.focusedMonitor = s.model.focusedMonitor) (r : DesktopRef)
    (f : Desktop → Desktop) : Calm (some r) s (s.withModel (m.modifyDesktop r f)) where
  history := ⟨[], rfl, by simp⟩
  shown := by
    show (m.modifyDesktop r f).shown = _
    rw [Model.shown_modifyDesktop, Model.shown, hmonitors, Model.shown]
  focused := hfocused
  focus r' hr' := by
    have hne : r ≠ r' := fun heq => hr' (congrArg some heq)
    show (m.modifyDesktop r f).focus? r' = _
    rw [Model.focus?, Model.desktop?_modifyDesktop_other _ hne, Model.desktop?, Model.monitor?,
      hmonitors]
    rfl
  desktop r' := by
    have hsame : m.desktop? = s.model.desktop? := by
      funext r
      rw [Model.desktop?, Model.monitor?, hmonitors]
      rfl
    show ((m.modifyDesktop r f).desktop? r').isSome = _
    by_cases hr : r = r'
    · rw [← hr, Model.desktop?_modifyDesktop, Option.isSome_map, hsame]
    · rw [Model.desktop?_modifyDesktop_other _ hr, hsame]
  settings := rfl

/-- A change that leaves the focus of its desktop alone. -/
theorem of_focus (h : Calm (some r) s s') (hfocus : s'.model.focus? r = s.model.focus? r) :
    Calm edited s s' where
  history := h.history
  shown := h.shown
  focused := h.focused
  focus r' _ := by
    by_cases hr : r = r'
    · rw [← hr, hfocus]
    · exact h.focus r' fun heq => hr (Option.some.inj heq)
  desktop := h.desktop
  settings := h.settings

theorem withLayout (s : Stage) (r : DesktopRef) (layout : Layout) :
    Calm edited s
      (s.withModel (s.model.modifyDesktop r fun d => { d with layout := layout })) := by
  apply of_focus (modifyDesktop s rfl rfl r _)
  show ((s.model.modifyDesktop r _).desktop? r).bind Desktop.focus = _
  rw [Model.desktop?_modifyDesktop, Option.bind_map]
  rfl

theorem of_stroke {k : StrokeKind} (hk : k.isCalm = true) (h : s.Stroke k s') :
    Calm edited s s' := by
  cases h with
  | announce => exact announce s _ _
  | report => exact publishReport s
  | configure | destroy => exact request s ⟨rfl, rfl⟩
  | grant rect => exact createFeedback s rect
  | arrange r => exact applyLayout s r
  | restack n promote => exact restack s n promote
  | raise => exact emit s fun _ he => (Stack.mem_raiseFeedback he).discreet
  | state | layer | urgency | float | flag | clear | mark => exact modifyTree s _
  | layout r layout => exact withLayout s r layout
  | _ => cases hk

theorem of_path {kinds : List StrokeKind} (h : s.Path kinds s')
    (hkinds : kinds.all StrokeKind.isCalm = true) : Calm edited s s' :=
  h.frame hkinds refl trans of_stroke

/-- Once a leaf that is given the focus has been chosen, the rest is calm. -/
theorem focusNode {n : NodeId} {r : DesktopRef} (h : s.model.locate? n = some r) :
    Calm edited (s.choose r n) (s.focusNode (some n)) :=
  of_path (path_placed h) rfl

/-! ## Windows that come and go -/

theorem removeClient (s : Stage) (r : DesktopRef) (d : Desktop) (n : NodeId) :
    Calm (some r) s (s.removeClient r d n) :=
  modifyDesktop s (m := { s.model with
    stack := s.model.stack.remove s.model.tree n
    tree := (s.model.tree.removeLeaf d.root n).1 }) rfl rfl r _

theorem insertClient (s : Stage) (r : DesktopRef) (d : Desktop) (client : Client)
    (csq : Consequences) : Calm (some r) s (s.insertClient r d client csq).1 := by
  obtain ⟨u, presel, htaken, hbody⟩ := insertClient_eq s r d client csq
  have hu : Calm (some r) s u := by
    rcases htaken with rfl | ⟨f, rfl⟩
    · exact refl u
    · exact of_path (path_takePresel s f) rfl
  obtain ⟨t, root, n, hleaf⟩ : ∃ t root n, u.model.tree.insertLeaf d.root d.focus client
      (presel.any fun p => p.dir == .west || p.dir == .north) = (t, root, n) := ⟨_, _, _, rfl⟩
  rw [hbody t root n hleaf]
  apply hu.trans
  exact modifyDesktop u (m := { u.model with
    tree := t.modify n fun node => { node with flags := csq.flags } }) rfl rfl r _

end Calm

end Stage

/-! ## Operations -/

/-- The operation changes neither what is shown nor where the focus is, and no settings. -/
def Operation.isCalm : Operation → Bool
  | .manage .. | .unmanage _ | .focus _ | .clearFocus | .focusDesktop _ | .settings _ => false
  | _ => true

theorem Operation.keepsWindows_of_isCalm {op : Operation} (h : op.isCalm = true) :
    op.keepsWindows = true := by
  cases op <;> first | rfl | cases h

namespace Stage

theorem calm_perform (s : Stage) {op : Operation} (hop : op.isCalm = true) :
    s.Calm none (s.perform op) := by
  refine Calm.of_path (path_perform s (Operation.keepsWindows_of_isCalm hop)) ?_
  cases op <;> first | rfl | cases hop

end Stage

end Tiling
