import Tiling.Proofs.Daemon.Ghosts
import Tiling.Proofs.Model.Calm
/-!
# Refused requests

A request that is refused leaves the program as it was, with one exception: the steps of a
`node` command are carried out one after the other, and the search for a neighbour can fail
where earlier steps have been carried out.  Those stand, as if the request had ended before the
one that failed.
-/

namespace Tiling

namespace Stage

theorem settings_focusNode (s : Stage) (n : Option NodeId) :
    (s.focusNode n).settings = s.settings := by
  cases n with
  | none => rfl
  | some n =>
    cases hlocate : s.model.locate? n with
    | none => simp only [focusNode, hlocate]
    | some r =>
      have hfocused : Calm none (s.choose r n) (s.focusNode (some n)) := .focusNode hlocate
      calc (s.focusNode (some n)).settings = (s.choose r n).settings := hfocused.settings
        _ = (if s.model.focusedDesktop? = some r then s else s.showDesktop r).settings := rfl
        _ = s.settings := by
          split
          · rfl
          · exact (Keeps.showDesktop s r).settings

end Stage

namespace Daemon

theorem settings_nodeStep (n : NodeId) (step : NodeStep) (s : Stage) :
    (nodeStep n step s).1.settings = s.settings := by
  cases step with
  | focus => exact s.settings_focusNode (some n)
  | focusNeighbour dir =>
    unfold nodeStep
    dsimp only
    split
    · exact s.settings_focusNode _
    · rfl
  | state state => exact (Stage.Calm.of_path (s.path_setState n state) rfl : s.Calm none _).settings
  | layer layer => exact (Stage.Calm.of_path (s.path_setLayer n layer) rfl : s.Calm none _).settings
  | flag flag value =>
    exact (Stage.Calm.of_path (s.path_setFlag n flag _) rfl : s.Calm none _).settings
  | presel dir => exact (Stage.Calm.of_path (s.path_presel n dir) rfl : s.Calm none _).settings

theorem settings_nodeSteps (n : NodeId) (steps : List NodeStep) (s : Stage) :
    (nodeSteps n steps s).1.settings = s.settings := by
  induction steps generalizing s with
  | nil => rfl
  | cons step rest ih =>
    have hstep := settings_nodeStep n step s
    rw [nodeSteps]
    generalize nodeStep n step s = after at *
    obtain ⟨s', failure⟩ := after
    cases failure with
    | none => exact (ih s').trans hstep
    | some e => exact hstep

/-- Only the search for a neighbour can fail. -/
theorem nodeStep_error {n : NodeId} {step : NodeStep} {s s' : Stage} {e : CommandError}
    (h : nodeStep n step s = (s', some e)) :
    s' = s ∧ e = .noTarget .node ∧ ∃ dir, step = .focusNeighbour dir ∧
      s.model.neighbour? n dir s.settings.tightness = none := by
  cases step with
  | focusNeighbour dir =>
    rw [nodeStep] at h
    cases hother : s.model.neighbour? n dir s.settings.tightness with
    | some other =>
      rw [hother] at h
      cases h
    | none =>
      rw [hother] at h
      cases h
      exact ⟨rfl, rfl, dir, rfl, hother⟩
  | _ => cases h

/-- Steps that fail have been carried out up to a search for a neighbour that there is not. -/
theorem nodeSteps_error {n : NodeId} {steps : List NodeStep} {s s' : Stage} {e : CommandError}
    (h : nodeSteps n steps s = (s', some e)) :
    e = .noTarget .node ∧ ∃ before dir after, steps = before ++ .focusNeighbour dir :: after ∧
      nodeSteps n before s = (s', none) ∧
      s'.model.neighbour? n dir s'.settings.tightness = none := by
  induction steps generalizing s with
  | nil => cases h
  | cons step rest ih =>
    rw [nodeSteps] at h
    cases hstep : nodeStep n step s with
    | mk u failure =>
      rw [hstep] at h
      cases failure with
      | some e' =>
        cases h
        obtain ⟨rfl, rfl, dir, rfl, hnone⟩ := nodeStep_error hstep
        exact ⟨rfl, [], dir, rest, rfl, rfl, hnone⟩
      | none =>
        obtain ⟨he, before, dir, after, rfl, hbefore, hnone⟩ := ih h
        refine ⟨he, step :: before, dir, after, rfl, ?_, hnone⟩
        rw [nodeSteps, hstep]
        exact hbefore

/-- The part of the program that no refused request touches. -/
def Spares (d d' : Daemon) : Prop :=
  d'.settings = d.settings ∧ d'.pending = d.pending ∧ d'.runState = d.runState ∧
    d'.exitStatus = d.exitStatus ∧ d'.nextDescriptor = d.nextDescriptor

theorem Spares.refl (d : Daemon) : d.Spares d := ⟨rfl, rfl, rfl, rfl, rfl⟩

/-- The request ends as it would have without the step that failed and those after it. -/
def StopsShort (d d' : Daemon) (arguments : List String) : Prop :=
  ∃ target n before dir after,
    Command.ofArguments arguments = .ok (.node target (before ++ .focusNeighbour dir :: after)) ∧
    before ≠ [] ∧ targetNode? d.model target = some n ∧
    d.execute (.node target before) = (d', .ok (.text "")) ∧
    d'.model.neighbour? n dir d'.settings.tightness = none

theorem runNode_error {d d' : Daemon} {target : NodeTarget} {steps : List NodeStep}
    {e : CommandError} (h : d.runNode target steps = (d', .error e)) :
    d.Spares d' ∧ e = .noTarget .node ∧ (d' = d ∨ ∃ n before dir after,
      steps = before ++ .focusNeighbour dir :: after ∧ before ≠ [] ∧
      targetNode? d.model target = some n ∧ d.runNode target before = (d', .ok (.text "")) ∧
      d'.model.neighbour? n dir d'.settings.tightness = none) := by
  unfold runNode at h ⊢
  cases hn : targetNode? d.model target with
  | none =>
    rw [hn] at h
    cases h
    exact ⟨.refl d, rfl, .inl rfl⟩
  | some n =>
    simp only [hn] at h ⊢
    cases hsteps : nodeSteps n steps d.quietStage with
    | mk stage failure =>
      rw [hsteps] at h
      cases failure with
      | none => cases h
      | some e' =>
        cases h
        have hsettings : stage.settings = d.settings := by
          have hall := settings_nodeSteps n steps d.quietStage
          rw [hsteps] at hall
          exact hall
        obtain ⟨he, before, dir, after, hsplit, hbefore, hnone⟩ := nodeSteps_error hsteps
        refine ⟨⟨hsettings, rfl, rfl, rfl, rfl⟩, he, ?_⟩
        -- without a step before the search nothing has been done
        cases before with
        | nil =>
          cases hbefore
          exact .inl rfl
        | cons step before =>
          refine .inr ⟨n, step :: before, dir, after, hsplit, by simp, rfl, ?_, hnone⟩
          rw [hbefore]

theorem runConfig_error {d d' : Daemon} {key : String} {value : Option String} {e : CommandError}
    (h : d.runConfig key value = (d', .error e)) : d' = d := by
  unfold runConfig at h
  split at h
  · split at h <;> cases h
    rfl
  · split at h <;> cases h
    rfl

theorem runDesktop_error {d d' : Daemon} {name : Option String} {steps : List DesktopStep}
    {e : CommandError} (h : d.runDesktop name steps = (d', .error e)) : d' = d := by
  unfold runDesktop at h
  split at h <;> cases h
  rfl

theorem subscribeFifo_error {d d' : Daemon} {topics : Topics} {budget : Int32} {e : CommandError}
    (h : d.subscribeFifo topics budget = (d', .error e)) : d' = d := by
  unfold subscribeFifo at h
  split at h <;> cases h
  rfl

/-- A request that is refused leaves the settings, the waiting windows and the course of the run
alone; it leaves everything as it was, with all that was asked of the display and announced,
unless it stops short of a step on a node. -/
theorem handle_error {d d' : Daemon} {arguments : List String} {e : CommandError}
    (h : d.handle arguments = (d', .error e)) :
    d.Spares d' ∧ (d' = d ∨ (e = .noTarget .node ∧ d.StopsShort d' arguments)) := by
  have hsame (heq : d' = d) :
      d.Spares d' ∧ (d' = d ∨ (e = .noTarget .node ∧ d.StopsShort d' arguments)) :=
    ⟨heq ▸ .refl d, .inl heq⟩
  unfold handle at h
  cases hcommand : Command.ofArguments arguments with
  | error e' =>
    rw [hcommand] at h
    cases h
    exact hsame rfl
  | ok command =>
    rw [hcommand] at h
    cases command with
    | query what => cases h
    | subscribe fifo budget topics =>
      cases fifo with
      | false => cases h
      | true => exact hsame (subscribeFifo_error h)
    | wm what => cases h
    | quit status => cases h
    | config key value => exact hsame (runConfig_error h)
    | desktop name steps => exact hsame (runDesktop_error h)
    | node target steps =>
      obtain ⟨hspares, he, hrest⟩ := runNode_error h
      refine ⟨hspares, ?_⟩
      rcases hrest with heq | ⟨n, before, dir, after, rfl, hbefore, hn, hrun, hnone⟩
      · exact .inl heq
      · exact .inr ⟨he, target, n, before, dir, after, hcommand, hbefore, hn, hrun, hnone⟩

/-! ## A request that stops short -/

def lone : Daemon :=
  (ready [("S", ⟨0, 0, 640, 480⟩)] Config.standard .unavailable ⟨"/tmp", true, []⟩).run
    [.turn silent .display [.mapRequest 1 0] false]

/-- Lets the focused window float, then gives the focus to the one west of it. -/
def floatWest : List String := ["node", "-t", "floating", "-f", "west"]

theorem refused_lone : lone.handle floatWest =
    ((lone.handle floatWest).1, .error (.noTarget .node)) :=
  Prod.ext rfl (by decide +kernel)

theorem floats_lone : (lone.handle floatWest).1.model ≠ lone.model := by decide +kernel

theorem stopsShort_lone :
    lone.handle floatWest = ((lone.handle floatWest).1, .error (.noTarget .node)) ∧
      lone.Spares (lone.handle floatWest).1 ∧
      lone.StopsShort (lone.handle floatWest).1 floatWest := by
  obtain ⟨hspares, hrest⟩ := handle_error refused_lone
  refine ⟨refused_lone, hspares, ?_⟩
  rcases hrest with hsame | ⟨-, hstops⟩
  · exact absurd (congrArg model hsame) floats_lone
  · exact hstops

/-- The request is refused, and yet the window floats and the display has been asked to move it. -/
theorem not_refused_unchanged :
    ¬ ∀ (outputs : List (String × Rect)) (config : Config) (ids : FeedbackIds)
      (files : FifoDirectory) (occurrences : List Occurrence) (arguments : List String)
      (d' : Daemon) (e : CommandError),
      ((ready outputs config ids files).run occurrences).handle arguments = (d', .error e) →
      d'.model = ((ready outputs config ids files).run occurrences).model ∧
        d'.effects = ((ready outputs config ids files).run occurrences).effects := by
  intro hall
  exact floats_lone (hall _ _ _ _ _ _ _ _ refused_lone).1

end Daemon

end Tiling
