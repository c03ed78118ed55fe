import Tiling.Daemon.Run
import Tiling.Proofs.Model.Managed
/-!
# Requests and the model

Whatever a request asks for, the model goes through operations that take no window in and let
none go, and no waiting window is touched.  So what survives these operations survives every
request.
-/

namespace Tiling

namespace Stage

/-- A property of sound models in use that every operation keeps which leaves the windows alone,
whatever the history holds. -/
structure Survives (I : Stage → Prop) : Prop where
  sound : ∀ s, I s → s.model.Sound
  history : ∀ s h, I s → I { s with history := h }
  perform : ∀ s op, op.keepsWindows = true → I s → I (s.perform op)

/-- Soundness survives, with the windows that are managed. -/
theorem survives_manages (m : Model) :
    Survives fun s => s.model.Sound ∧ ∀ w, s.model.Manages w ↔ m.Manages w where
  sound _ h := h.1
  history _ _ h := h
  perform _ op hop h :=
    ⟨(perform_spec h.1 op).1, fun w => (manages_perform_iff h.1 hop w).trans (h.2 w)⟩

theorem onTarget_window {s : Stage} (hs : s.model.Sound) {n : NodeId} {w : Window}
    (hn : s.model.tree.window? n = some w) (f : NodeId → Stage) :
    s.onTarget (.window w) f = f n := by
  obtain ⟨shapes, h⟩ := hs
  have hfind : (Target.window w).node? s.model = some n := h.findWindow?_eq hn
  rw [onTarget, hfind]

end Stage

namespace Daemon

open Stage (Survives onTarget_window)

/-- A step on the node of a window is an operation on that window, or nothing. -/
theorem nodeStep_eq {s : Stage} (hs : s.model.Sound) {n : NodeId} {w : Window}
    (hn : s.model.tree.window? n = some w) (step : NodeStep) :
    (nodeStep n step s).1 = s ∨
      ∃ op : Operation, op.keepsWindows = true ∧ (nodeStep n step s).1 = s.perform op := by
  have hon (f : NodeId → Stage) : f n = s.onTarget (.window w) f :=
    (onTarget_window hs hn f).symm
  cases step with
  | focus => exact .inr ⟨.focus (.window w), rfl, hon fun n => s.focusNode (some n)⟩
  | focusNeighbour dir =>
    rw [nodeStep]
    cases hother : s.model.neighbour? n dir s.settings.tightness with
    | none => exact .inl rfl
    | some other =>
      refine .inr ⟨.focus (.neighbour (.window w) dir s.settings.tightness), rfl, ?_⟩
      obtain ⟨shapes, h⟩ := hs
      have hnode : (Target.neighbour (.window w) dir s.settings.tightness).node? s.model =
          some other := by
        rw [Target.node?, Target.node?, h.findWindow?_eq hn, Option.bind_some, hother]
      rw [Stage.perform, Stage.onTarget, hnode]
  | state state => exact .inr ⟨.setState (.window w) state, rfl, hon fun n => s.setState n state⟩
  | layer layer => exact .inr ⟨.setLayer (.window w) layer, rfl, hon fun n => s.setLayer n layer⟩
  | flag flag value =>
    exact .inr ⟨.setFlag (.window w) flag (value.getD !(s.flag n flag)), rfl,
      hon fun n' => s.setFlag n' flag (value.getD !(s.flag n flag))⟩
  | presel dir => exact .inr ⟨.presel (.window w) dir, rfl, hon fun n => s.presel n dir⟩

section Survival

variable {I : Stage → Prop}

theorem survives_nodeSteps (h : Survives I) {n : NodeId} {w : Window} (steps : List NodeStep)
    {s : Stage} (hs : I s) (hn : s.model.tree.window? n = some w) : I (nodeSteps n steps s).1 := by
  induction steps generalizing s with
  | nil => exact hs
  | cons step rest ih =>
    have hstep : I (nodeStep n step s).1 ∧
        (nodeStep n step s).1.model.tree.window? n = some w := by
      rcases nodeStep_eq (h.sound s hs) hn step with hsame | ⟨op, hop, hperform⟩
      · rw [hsame]
        exact ⟨hs, hn⟩
      · rw [hperform, Stage.window?_of_keepsWindows (h.sound s hs) hop]
        exact ⟨h.perform s op hop hs, hn⟩
    rw [nodeSteps]
    generalize nodeStep n step s = after at hstep
    obtain ⟨s', failure⟩ := after
    cases failure with
    | none => exact ih hstep.1 hstep.2
    | some e => exact hstep.1

theorem survives_desktopSteps (h : Survives I) (r : DesktopRef) (steps : List DesktopStep)
    {s : Stage} (hs : I s) : I (steps.foldl (desktopStep r) s) := by
  induction steps generalizing s with
  | nil => exact hs
  | cons step rest ih =>
    refine ih ?_
    cases step with
    | focus => exact h.perform s (.focusDesktop r) rfl hs
    | layout layout => exact h.perform s (.setLayout r layout) rfl hs

theorem survives_adopt (h : Survives I) (d : Daemon) {s : Stage} (hs : I s) :
    I (d.adopt s).stage :=
  h.history s _ hs

/-- What survives operations survives commands, and the waiting windows stay as they are. -/
theorem survives_execute (h : Survives I) {d : Daemon} (hd : I d.stage) (command : Command) :
    I (d.execute command).1.stage ∧ (d.execute command).1.pending = d.pending := by
  have hquiet : I d.quietStage := h.history _ _ hd
  cases command with
  | query what => exact ⟨hd, rfl⟩
  | subscribe fifo budget topics =>
    cases fifo with
    | false => exact ⟨hd, rfl⟩
    | true =>
      rw [execute, subscribeFifo]
      split
      · exact ⟨hd, rfl⟩
      · exact ⟨hd, rfl⟩
  | wm what => cases what <;> exact ⟨hd, rfl⟩
  | quit status => exact ⟨hd, rfl⟩
  | config key value =>
    rw [execute]
    unfold runConfig
    split
    · split <;> exact ⟨hd, rfl⟩
    · split
      · rename_i settings _
        exact ⟨h.perform d.stage (.settings settings) rfl hd, rfl⟩
      · exact ⟨hd, rfl⟩
  | node target steps =>
    rw [execute, runNode]
    cases hn : targetNode? d.model target with
    | none => exact ⟨hd, rfl⟩
    | some n =>
      have hlive : (d.model.tree.client? n).isSome := by
        cases target with
        | focused => exact Model.isSome_client?_of_focused (h.sound _ hd) hn
        | window w => rw [← Model.isSome_window?, Tree.window?_of_findWindow hn, Option.isSome_some]
      obtain ⟨w, hw⟩ := Option.isSome_iff_exists.1 ((Model.isSome_window? _ n).trans hlive)
      exact ⟨survives_adopt h d (survives_nodeSteps h steps hquiet hw), rfl⟩
  | desktop name steps =>
    rw [execute, runDesktop]
    cases targetDesktop? d.model name with
    | none => exact ⟨hd, rfl⟩
    | some r => exact ⟨survives_adopt h d (survives_desktopSteps h r steps hquiet), rfl⟩

theorem survives_serve (h : Survives I) {d : Daemon} (hd : I d.stage) (connection : Stream)
    (request : Bytes) :
    I (d.serve connection request).1.stage ∧
      (d.serve connection request).1.pending = d.pending := by
  have hhandle (arguments : List String) :
      I (d.handle arguments).1.stage ∧ (d.handle arguments).1.pending = d.pending := by
    unfold handle
    split
    · exact survives_execute h hd _
    · exact ⟨hd, rfl⟩
  have hdecoded := hhandle (Wire.decodeRequest (request.take Wire.capacity))
  unfold serve
  split <;> rename_i hresult <;> rw [hresult] at hdecoded
  · exact hdecoded
  · exact hdecoded
  · exact hdecoded

end Survival

/-- A request leaves the managed and the waiting windows as they are. -/
theorem serve_spec {d : Daemon} (hd : d.model.Sound) (connection : Stream) (request : Bytes) :
    (d.serve connection request).1.model.Sound ∧
      (∀ w, (d.serve connection request).1.model.Manages w ↔ d.model.Manages w) ∧
      (d.serve connection request).1.pending = d.pending := by
  obtain ⟨⟨hsound, hmanages⟩, hpending⟩ := survives_serve (Stage.survives_manages d.model)
    ⟨hd, fun _ => Iff.rfl⟩ connection request
  exact ⟨hsound, hmanages, hpending⟩

end Daemon

end Tiling
