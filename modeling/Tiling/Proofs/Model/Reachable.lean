import Tiling.Proofs.Model.Geometry
import Tiling.Proofs.Model.Restart
/-!
# Reachable stages

A stage is reached from a model without windows by operations and restarts.  What a run keeps
and a restart carries over holds at every one of them.
-/

namespace Tiling.Stage

/-- Operations lead to the stage, after any number of earlier lives. -/
def Reachable (s : Stage) : Prop :=
  ∃ outputs names settings ids earlier ops,
    s = ((fresh outputs names settings ids).lives earlier).run ops

variable {s s' : Stage} {r : DesktopRef}

/-- The order of the slots of a stack has no part in where windows are. -/
theorem Settled.alike (hsettled : s.Settled r) (h : s.Alike s') : s'.Settled r := by
  obtain ⟨l, stack, -, -, rfl⟩ := h
  intro monitor d shape hmonitor hd hroot hshape n rect hn
  have hrests := hsettled monitor d shape hmonitor hd hroot hshape n rect hn
  exact ⟨hrests.placed, hrests.sent⟩

theorem settled_lives (h : Carried s.model) (hsettled : ∀ r, s.Settled r)
    (runs : List (List Operation × List SubscriberRecord)) (r : DesktopRef) :
    (s.lives runs).Settled r := by
  induction runs generalizing s with
  | nil => exact hsettled r
  | cons run runs ih =>
    have hran := carried_run h run.1
    exact ih (carried_restart hran run.2) fun r' =>
      ((steps_run h.1 run.1).settled hsettled r').alike (alike_restart hran run.2)

namespace Reachable

theorem sound (h : s.Reachable) : s.model.Sound := by
  obtain ⟨outputs, names, settings, ids, earlier, ops, rfl⟩ := h
  exact (carried_run (carried_lives (carried_fresh outputs names settings ids) earlier) ops).1

theorem settled (h : s.Reachable) (r : DesktopRef) : s.Settled r := by
  obtain ⟨outputs, names, settings, ids, earlier, ops, rfl⟩ := h
  have hfresh := carried_fresh outputs names settings ids
  have hlives := settled_lives hfresh (settled_fresh outputs names settings ids) earlier
  exact (steps_run (carried_lives hfresh earlier).1 ops).settled hlives r

theorem perform (h : s.Reachable) (op : Operation) : (s.perform op).Reachable := by
  obtain ⟨outputs, names, settings, ids, earlier, ops, rfl⟩ := h
  exact ⟨outputs, names, settings, ids, earlier, ops ++ [op], by rw [run_append]; rfl⟩

end Reachable

end Tiling.Stage
