import Tiling.Proofs.Model.Focus
import Tiling.Proofs.Model.Neighbour
/-!
# Runs

A run carries out operations on the model one after the other, with changes of the settings in
between.  One step keeps a model sound and does to the stack what the operation says; every
model of a run from a fresh one is sound.
-/

namespace Tiling

/-- How an operation names the node it is about. -/
inductive Target where
  | window (w : Window)
  /-- The node that has the input focus. -/
  | focused
  /-- The closest node in a direction. -/
  | neighbour (origin : Target) (dir : Direction) (tightness : Tightness)
  deriving DecidableEq, Repr

namespace Target

/-- The node that is named. -/
def node? (m : Model) : Target → Option NodeId
  | .window w => m.tree.findWindow? w
  | .focused => m.focusedNode?
  | .neighbour origin dir tightness =>
    (origin.node? m).bind fun n => m.neighbour? n dir tightness

end Target

/-- An operation on the model, or a change of the settings. -/
inductive Operation where
  | manage (w : Window) (named : WindowClass) (csq : Consequences)
  | unmanage (w : Window)
  | focus (target : Target)
  /-- No node gets the input focus. -/
  | clearFocus
  | setState (target : Target) (state : ClientState)
  | setLayer (target : Target) (layer : Layer)
  | setFlag (target : Target) (flag : Flag) (value : Bool)
  | presel (target : Target) (dir : Option Direction)
  | configure (w : Window) (rect : Rect)
  | setUrgency (w : Window) (urgent : Bool)
  | focusDesktop (r : DesktopRef)
  | setLayout (r : DesktopRef) (layout : Layout)
  | settings (new : Settings)

namespace Operation

/-- The operation takes no window in and lets none go. -/
def keepsWindows : Operation → Bool
  | .manage .. | .unmanage _ => false
  | _ => true

/-- The kinds of strokes that an operation is made up of if it keeps the windows. -/
def strokes : Operation → List Stage.StrokeKind
  | .manage .. | .unmanage _ => []
  | .focus _ => [.map, .activate, .announce, .monitor, .choose, .focus, .restack, .report]
  | .clearFocus => [.focus, .report]
  | .setState .. => [.state, .announce, .arrange, .restack, .report]
  | .setLayer .. => [.layer, .announce, .restack]
  | .setFlag .. => [.flag, .announce, .report]
  | .presel .. => [.destroy, .clear, .grant, .mark, .announce, .raise]
  | .configure .. => [.float, .configure]
  | .setUrgency .. => [.urgency, .report]
  | .focusDesktop _ => [.map, .activate, .announce, .monitor, .focus, .report]
  | .setLayout .. => [.layout, .announce, .arrange, .report]
  | .settings _ => [.settings]

end Operation

namespace Stage

/-- Carries out an operation on the node that a target names; without one, nothing. -/
def onTarget (s : Stage) (target : Target) (f : NodeId → Stage) : Stage :=
  match target.node? s.model with
  | none => s
  | some n => f n

/-- Carries out an operation. -/
def perform (s : Stage) : Operation → Stage
  | .manage w named csq => (s.manage w named csq).1
  | .unmanage w => (s.unmanage w).1
  | .focus target => s.onTarget target fun n => s.focusNode (some n)
  | .clearFocus => s.focusNode none
  | .setState target state => s.onTarget target fun n => s.setState n state
  | .setLayer target layer => s.onTarget target fun n => s.setLayer n layer
  | .setFlag target flag value => s.onTarget target fun n => s.setFlag n flag value
  | .presel target dir => s.onTarget target fun n => s.presel n dir
  | .configure w rect => s.configure w rect
  | .setUrgency w urgent => s.setUrgency w urgent
  | .focusDesktop r => s.focusDesktop r
  | .setLayout r layout => s.setLayout r layout
  | .settings new => { s with settings := new }

/-- Carries out operations one after the other. -/
def run (s : Stage) (ops : List Operation) : Stage := ops.foldl perform s

/-- A model without windows in use. -/
def fresh (outputs : List (String × Rect)) (desktopNames : List String) (settings : Settings)
    (ids : FeedbackIds) : Stage :=
  ⟨Model.fresh outputs desktopNames, settings, ids, []⟩

theorem run_append (s : Stage) (ops ops' : List Operation) :
    s.run (ops ++ ops') = (s.run ops).run ops' :=
  List.foldl_append

/-- The leaf that an operation takes out. -/
def gone? (s : Stage) : Operation → Option NodeId
  | .unmanage w => s.model.tree.findWindow? w
  | _ => none

/-- The leaf that an operation places in the stack, and whether it is promoted. -/
def placed? (s : Stage) : Operation → Option (NodeId × Bool)
  | .manage w named csq => (s.manage w named csq).2.map (·, true)
  | .unmanage w =>
    if (s.model.tree.findWindow? w).isSome ∧ s.model.focusedNode? = s.model.tree.findWindow? w then
      (s.unmanage w).1.model.focusedNode?.map (·, true)
    else none
  | .focus target => (target.node? s.model).map (·, true)
  | .setState target state =>
    (target.node? s.model).bind fun n =>
      if (s.model.tree.client? n).map Client.state = some state then none
      else some (n, s.hasFocus n)
  | .setLayer target layer =>
    (target.node? s.model).bind fun n =>
      if (s.model.tree.client? n).map Client.layer = some layer then none
      else some (n, s.hasFocus n)
  | _ => none

end Stage

/-! ## Strokes of an operation -/

namespace Stage

theorem path_onTarget {kinds : List StrokeKind} {s : Stage} {f : NodeId → Stage} (target : Target)
    (hf : ∀ n, s.Path kinds (f n)) : s.Path kinds (s.onTarget target f) := by
  unfold onTarget
  split
  · exact Path.refl s
  · exact hf _

theorem path_perform (s : Stage) {op : Operation} (hop : op.keepsWindows = true) :
    s.Path op.strokes (s.perform op) := by
  cases op with
  | manage w named csq => cases hop
  | unmanage w => cases hop
  | focus target => exact path_onTarget target fun n => path_focusNode s (some n)
  | clearFocus => exact (Path.one (by decide) (.focus none)).step (by decide) .report
  | setState target state => exact path_onTarget target fun n => path_setState s n state
  | setLayer target layer => exact path_onTarget target fun n => path_setLayer s n layer
  | setFlag target flag value => exact path_onTarget target fun n => path_setFlag s n flag value
  | presel target dir => exact path_onTarget target fun n => path_presel s n dir
  | configure w rect => exact path_configure s w rect
  | setUrgency w urgent => exact path_setUrgency s w urgent
  | focusDesktop r => exact path_focusDesktop s r
  | setLayout r layout => exact path_setLayout s r layout
  | settings new => exact Path.one List.mem_cons_self (.settings new)

end Stage

/-! ## Targets -/

theorem Target.isSome_client? {m : Model} (hm : m.Sound) {target : Target} {n : NodeId}
    (h : target.node? m = some n) : (m.tree.client? n).isSome := by
  cases target with
  | window w => rw [← Model.isSome_window?, Tree.window?_of_findWindow h, Option.isSome_some]
  | focused => exact Model.isSome_client?_of_focused hm h
  | neighbour origin dir tightness =>
    obtain ⟨n', -, hn⟩ := Option.bind_eq_some_iff.1 h
    exact Model.isSome_client?_of_neighbour hn

/-! ## One step -/

namespace Stage

theorem stays_onTarget {s : Stage} (hs : s.model.Sound) {target : Target} {f : NodeId → Stage}
    {placed : NodeId → Option (NodeId × Bool)}
    (hf : ∀ n client, s.model.tree.client? n = some client → s.Stays (f n) (placed n)) :
    s.Stays (s.onTarget target f) ((target.node? s.model).bind placed) := by
  unfold onTarget
  cases hn : target.node? s.model with
  | none => exact (Keeps.refl s).stays hs
  | some n =>
    obtain ⟨client, hclient⟩ := Option.isSome_iff_exists.1 (target.isSome_client? hs hn)
    exact hf n client hclient

/-- An operation that takes no window in and lets none go keeps every window, and moves at most
the leaf that `placed?` names; a change of the settings changes no model. -/
theorem stays_perform {s : Stage} (hs : s.model.Sound) {op : Operation}
    (hop : op.keepsWindows = true) :
    (∃ new, op = .settings new) ∨ s.Stays (s.perform op) (s.placed? op) := by
  have hnone (target : Target) (f : NodeId → Stage)
      (hf : ∀ n client, s.model.tree.client? n = some client → s.Keeps (f n)) :
      s.Stays (s.onTarget target f) none := by
    have hall : s.Stays (s.onTarget target f) ((target.node? s.model).bind fun _ => none) :=
      stays_onTarget hs fun n client hclient => (hf n client hclient).stays hs
    rwa [Option.bind_fun_none] at hall
  cases op with
  | manage w named csq => cases hop
  | unmanage w => cases hop
  | focus target =>
    right
    have hplaced : (target.node? s.model).map (·, true) =
        (target.node? s.model).bind fun n => some (n, true) := by
      cases target.node? s.model <;> rfl
    rw [placed?, hplaced]
    exact stays_onTarget hs fun n client hclient =>
      stays_focusNode hs (by rw [hclient, Option.isSome_some])
  | clearFocus =>
    have hkeeps : s.Keeps (s.focusNode none) := Keeps.of_model rfl rfl
    exact .inr (hkeeps.stays hs)
  | setState target state =>
    right
    refine stays_onTarget hs fun n client hclient => ?_
    have hchange := stays_setState hs hclient state
    by_cases hsame : client.state = state
    · rw [if_pos hsame] at hchange
      rwa [hclient, Option.map_some, if_pos (congrArg some hsame)]
    · rw [if_neg hsame] at hchange
      rwa [hclient, Option.map_some, if_neg fun h => hsame (Option.some.inj h)]
  | setLayer target layer =>
    right
    refine stays_onTarget hs fun n client hclient => ?_
    have hchange := stays_setLayer hs hclient layer
    by_cases hsame : client.layer = layer
    · rw [if_pos hsame] at hchange
      rwa [hclient, Option.map_some, if_pos (congrArg some hsame)]
    · rw [if_neg hsame] at hchange
      rwa [hclient, Option.map_some, if_neg fun h => hsame (Option.some.inj h)]
  | setFlag target flag value =>
    exact .inr (hnone target _ fun n _ _ => Keeps.of_path (path_setFlag s n flag value) rfl)
  | presel target dir =>
    right
    refine hnone target _ fun n client hclient => keeps_presel s ?_ dir
    rw [hclient, Option.isSome_some]
  | configure w rect => exact .inr ((keeps_configure s w rect).stays hs)
  | setUrgency w urgent => exact .inr ((Keeps.of_path (path_setUrgency s w urgent) rfl).stays hs)
  | focusDesktop r => exact .inr ((Keeps.of_path (path_focusDesktop s r) rfl).stays hs)
  | setLayout r layout => exact .inr (stays_setLayout hs r layout)
  | settings new => exact .inl ⟨new, rfl⟩

theorem window?_of_keepsWindows {s : Stage} (hs : s.model.Sound) {op : Operation}
    (hop : op.keepsWindows = true) (n : NodeId) :
    (s.perform op).model.tree.window? n = s.model.tree.window? n := by
  rcases stays_perform hs hop with ⟨new, rfl⟩ | hstays
  · rfl
  · exact hstays.window n

/-- An operation keeps a model sound and changes it as `gone?` and `placed?` say; a change of the
settings changes no model. -/
theorem perform_spec {s : Stage} (hs : s.model.Sound) (op : Operation) :
    (s.perform op).model.Sound ∧ ((∃ new, op = .settings new) ∨
      s.Evolves (s.perform op) (s.gone? op) (s.placed? op)) := by
  by_cases hop : op.keepsWindows = true
  · have hgone : s.gone? op = none := by
      cases op <;> first | rfl | cases hop
    rw [hgone]
    rcases stays_perform hs hop with ⟨new, rfl⟩ | hstays
    · exact ⟨hs, .inl ⟨new, rfl⟩⟩
    · exact ⟨hstays.sound, .inr hstays.evolves⟩
  cases op with
  | manage w named csq =>
    have hadmits := admits_manage hs w named csq
    exact ⟨hadmits.sound, .inr hadmits.evolves⟩
  | unmanage w =>
    simp only [perform, gone?, placed?]
    cases hn : s.model.tree.findWindow? w with
    | none =>
      rw [unmanage_of_unknown hn, if_neg (by simp)]
      exact ⟨hs, .inr (Keeps.refl s).evolves⟩
    | some n =>
      obtain ⟨-, hreleases⟩ := releases_unmanage hs hn
      refine ⟨hreleases.sound, .inr ?_⟩
      have hevolves := hreleases.evolves
      simpa using hevolves
  | _ => exact absurd rfl hop

end Stage

/-! ## Runs from a fresh model -/

namespace Model

/-- A model without windows: nothing in the store and in the stack, no desktop with a tree. -/
def IsBlank (m : Model) : Prop :=
  m.tree = Tree.empty ∧ m.stack = Stack.empty ∧ m.focusedMonitor = 0 ∧
    ∀ d ∈ m.desktops, d.root = none ∧ d.focus = none

theorem IsBlank.addMonitor {m : Model} (h : m.IsBlank) (names : List String)
    (output : String × Rect) : (m.addMonitor names output).IsBlank := by
  obtain ⟨htree, hstack, hfocused, hdesktops⟩ := h
  refine ⟨htree, hstack, hfocused, fun d hd => ?_⟩
  rw [desktops, Model.addMonitor, List.flatMap_append, List.mem_append] at hd
  rcases hd with hd | hd
  · exact hdesktops d hd
  · simp only [freshMonitor, List.flatMap_cons, List.flatMap_nil, List.append_nil] at hd
    obtain ⟨i, hi, rfl⟩ := List.mem_mapIdx.1 hd
    exact ⟨rfl, rfl⟩

theorem isBlank_fresh (outputs : List (String × Rect)) (names : List String) :
    (Model.fresh outputs names).IsBlank := by
  have hall (m : Model) (hm : m.IsBlank) : (outputs.foldl (Model.addMonitor names) m).IsBlank := by
    induction outputs generalizing m with
    | nil => exact hm
    | cons output outputs ih => exact ih _ (hm.addMonitor names output)
  exact hall _ ⟨rfl, rfl, rfl, by simp [desktops]⟩

theorem IsBlank.sound {m : Model} (h : m.IsBlank) : m.Sound := by
  obtain ⟨htree, hstack, hfocused, hdesktops⟩ := h
  have hnone : (m.desktops.map fun _ => (none : Option Tree.Shape)).reduceOption = [] := by
    induction m.desktops with
    | nil => rfl
    | cons d desktops ih => exact ih
  refine ⟨m.desktops.map fun _ => none, ?_, ?_, ?_, ?_, ?_⟩
  · rw [hnone, htree]
    exact Tree.Forest.empty
  · rw [List.forall₂_map_right_iff, List.forall₂_same]
    exact hdesktops
  · intro a b w ha
    rw [htree] at ha
    simp [Tree.window?, Tree.client?, Tree.get?, Tree.empty, Slots.get?_empty] at ha
  · exact ⟨[], by rw [hstack]; exact Stack.Holds.empty, by simp⟩
  · rw [hfocused]
    cases m.monitors with
    | nil => exact .inl rfl
    | cons => exact .inr (Nat.succ_pos _)

end Model

namespace Stage

theorem sound_run {s : Stage} (hs : s.model.Sound) (ops : List Operation) :
    (s.run ops).model.Sound := by
  induction ops generalizing s with
  | nil => exact hs
  | cons op ops ih => exact ih (perform_spec hs op).1

theorem sound_fresh (outputs : List (String × Rect)) (names : List String) (settings : Settings)
    (ids : FeedbackIds) : (fresh outputs names settings ids).model.Sound :=
  (Model.isBlank_fresh outputs names).sound

end Stage

end Tiling
