import Tiling.Daemon.Basic
/-!
# Display events

A window that asks to be shown is managed at once, or when its classifier has answered. Meanwhile
its events are kept, and they are carried out in their order once it is managed.
-/

namespace Tiling.Daemon

/-- Manages a window, asking it for its class. -/
def manage (d : Daemon) (env : Surroundings) (window : Window) (csq : Consequences) : Daemon :=
  (d.request (.readClass window)).perform fun s =>
    (s.manage window (env.screen.classOf window) csq).1

/-- The window is managed or waits for its classifier. -/
def knows (d : Daemon) (window : Window) : Bool :=
  (d.model.tree.findWindow? window).isSome || d.pending.contains window

/-- The classifier can be started: there is one, and what it is told can be passed on. -/
def canClassify (d : Daemon) (env : Surroundings) (arguments : List String) : Bool :=
  let command := d.settings.rulesCommand
  !command.isEmpty && env.canRun command &&
    !(command :: arguments).any fun text => text.toList.contains '\x00'

/-- Starts a classifier for a window, or manages it without one. -/
def schedule (d : Daemon) (env : Surroundings) (window : Window) (sequence : UInt16) : Daemon :=
  if d.knows window then d
  else
    let d := d.request (.readClass window)
    let rule : PendingRule := ⟨window, sequence, .standard, []⟩
    let arguments := Classifier.argumentsFor rule (env.screen.classOf window)
    if d.canClassify env arguments then { d with pending := d.pending.track rule arguments }
    else d.manage env window .standard

def handleEvent (env : Surroundings) (d : Daemon) : DisplayEvent → Daemon
  | .mapRequest window sequence => d.schedule env window sequence
  | .unmapped window | .destroyed window => d.perform fun s => (s.unmanage window).1
  | .configureRequest window rect => d.perform fun s => s.configure window rect
  | .hintsChanged window =>
    (d.request (.readHints window)).perform fun s =>
      s.setUrgency window (env.screen.isUrgent window)

/-- Takes an event from the display: keeps it for a waiting window, else carries it out. -/
def receive (env : Surroundings) (d : Daemon) (event : DisplayEvent) : Daemon :=
  match d.pending.enqueue? event with
  | some pending => { d with pending := pending }
  | none => handleEvent env d event

/-- Manages a window that has waited, then carries out its events. -/
def resolve (env : Surroundings) (d : Daemon) (rule : PendingRule) (answer : Option String) :
    Daemon :=
  let csq := (answer.map rule.consequences.apply).getD rule.consequences
  rule.events.foldl (handleEvent env) (d.manage env rule.window csq)

/-- Manages the next window that has an answer. -/
def resolveNext (env : Surroundings) (d : Daemon) : Daemon :=
  match d.pending.nextResolved with
  | (some (rule, answer), pending) => resolve env { d with pending := pending } rule answer
  | (none, pending) => { d with pending := pending }

/-- Manages every waiting window without its answer. -/
def settlePending (env : Surroundings) (d : Daemon) : Daemon :=
  let (rules, pending) := d.pending.drain
  rules.foldl (fun d rule => resolve env d rule none) { d with pending := pending }

end Tiling.Daemon
