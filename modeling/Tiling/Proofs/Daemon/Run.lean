import Tiling.Proofs.Daemon.Requests
/-!
# Runs of the program

What happens to the program from its start on, in any order, and a log of the events of the
display that it carries out.  The log notes of each event whether its window was waiting for its
classifier at that moment, which can only be while the events of a window are carried out that
has waited.
-/

namespace Tiling

namespace DisplayEvent

/-- The event shows that a window comes or goes. -/
def isLifecycle : DisplayEvent → Bool
  | .mapRequest .. | .unmapped _ | .destroyed _ => true
  | .configureRequest .. | .hintsChanged _ => false

/-- The window asks to be shown. -/
def isMapRequest : DisplayEvent → Bool
  | .mapRequest .. => true
  | _ => false

/-- The last event by which a window came or went. -/
def latest? (w : Window) (events : List DisplayEvent) : Option DisplayEvent :=
  (events.filter fun e => e.isLifecycle && e.window == w).getLast?

end DisplayEvent

namespace Daemon

/-- What can happen to the program. -/
inductive Occurrence where
  /-- The classifier of a window ends. -/
  | classified (window : Window) (answer : Option String)
  /-- The program wakes up. -/
  | turn (env : Surroundings) (cause : Cause) (events : List DisplayEvent) (lost : Bool)
  /-- Every waiting window is managed, before the program hands over. -/
  | settle (env : Surroundings)
  /-- The streams of subscribers change at their other ends. -/
  | readers (subscribers : Subscribers)

namespace Occurrence

/-- The events that are taken from the display. -/
def polled : Occurrence → List DisplayEvent
  | .turn _ _ events _ => events
  | .classified .. | .settle _ | .readers _ => []

end Occurrence

/-- Something happens. -/
def occur (d : Daemon) : Occurrence → Daemon
  | .classified window answer =>
    match d.pending.classifier? window with
    | some c => { d with pending := d.pending.complete c.task answer }
    | none => d
  | .turn env cause events lost => (d.wakeUp env cause events lost).1
  | .settle env => settlePending env d
  | .readers subscribers => { d with subscribers := subscribers }

/-- A program that has come up without a predecessor. -/
def ready (outputs : List (String × Rect)) (config : Config) (ids : FeedbackIds)
    (files : FifoDirectory) : Daemon :=
  (start outputs config ids files).configure.enter

/-- Things happen one after the other. -/
def run (d : Daemon) (occurrences : List Occurrence) : Daemon := occurrences.foldl occur d

/-- At the end of a turn the windows are as the last of its events has left them. -/
theorem occur_turn (d : Daemon) (env : Surroundings) (cause : Cause) (events : List DisplayEvent)
    (lost : Bool) :
    (d.occur (.turn env cause events lost)).model =
        (events.foldl (receive env) (attend env d cause).1).model ∧
      (d.occur (.turn env cause events lost)).pending =
        (events.foldl (receive env) (attend env d cause).1).pending := by
  have hloss (u : Daemon) :
      (u.noticeLoss lost).model = u.model ∧ (u.noticeLoss lost).pending = u.pending := by
    unfold noticeLoss
    split <;> exact ⟨rfl, rfl⟩
  exact hloss _

/-! ## The log -/

/-- An event that is carried out, and whether its window waits for its classifier. -/
structure Handled where
  event : DisplayEvent
  waiting : Bool
  deriving DecidableEq, Repr

/-- The last event carried out by which a window came or went. -/
def Handled.latest? (w : Window) (log : List Handled) : Option Handled :=
  (log.filter fun h => h.event.isLifecycle && h.event.window == w).getLast?

/-- The log of some steps `f`, each of which is logged by `g`. -/
def logged {α : Type} (f : Daemon → α → Daemon) (g : Daemon → α → List Handled) :
    Daemon → List α → List Handled
  | _, [] => []
  | d, a :: rest => g d a ++ logged f g (f d a) rest

/-- The log of carrying out an event. -/
def handling (d : Daemon) (e : DisplayEvent) : List Handled := [⟨e, d.pending.contains e.window⟩]

/-- The log of taking an event from the display: nothing while it is kept for later. -/
def receiving (d : Daemon) (e : DisplayEvent) : List Handled :=
  if (d.pending.enqueue? e).isSome then [] else d.handling e

/-- What a window is managed with, given the answer of its classifier. -/
def outcome (rule : PendingRule) (answer : Option String) : Consequences :=
  (answer.map rule.consequences.apply).getD rule.consequences

/-- The log of managing a window that has waited. -/
def resolving (env : Surroundings) (d : Daemon) (rule : PendingRule) (answer : Option String) :
    List Handled :=
  logged (handleEvent env) handling (d.manage env rule.window (outcome rule answer)) rule.events

/-- The log of dealing with a cause. -/
def attending (env : Surroundings) (d : Daemon) : Cause → List Handled
  | .classified =>
    match d.pending.nextResolved with
    | (some (rule, answer), pending) => resolving env { d with pending := pending } rule answer
    | (none, _) => []
  | .connection .. | .display | .signal => []

/-- The log of something that happens. -/
def occurring (d : Daemon) : Occurrence → List Handled
  | .turn env cause events _ =>
    attending env d cause ++ logged (receive env) receiving (attend env d cause).1 events
  | .settle env =>
    logged (fun d rule => resolve env d rule none) (fun d rule => resolving env d rule none)
      { d with pending := d.pending.drain.2 } d.pending.drain.1
  | .classified .. | .readers _ => []

/-- The log of a run. -/
def log (d : Daemon) (occurrences : List Occurrence) : List Handled :=
  logged occur occurring d occurrences

/-- What holds of the program and its log stays true over steps if each step keeps it. -/
theorem logged_induction {α : Type} {f : Daemon → α → Daemon} {g : Daemon → α → List Handled}
    {P : Daemon → List α → List Handled → Prop}
    (hstep : ∀ d a rest log, P d (a :: rest) log → P (f d a) rest (log ++ g d a)) (as : List α)
    {d : Daemon} {log : List Handled} (h : P d as log) :
    P (as.foldl f d) [] (log ++ logged f g d as) := by
  induction as generalizing d log with
  | nil => simpa [logged] using h
  | cons a rest ih =>
    have hrest := ih (hstep d a rest log h)
    rwa [List.append_assoc] at hrest

end Daemon

end Tiling
