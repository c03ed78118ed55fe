import Tiling.Display
import Tiling.Rules
import Tiling.Text.Utf8
/-!
# Pending windows

Windows whose classifier has not answered yet, with the events that came in for them meanwhile. A
classifier is known by a task number that is never used twice, so an answer that comes after its
window was settled in another way is recognised and passed over.
-/

namespace Tiling

/-- A window that waits for its classifier. -/
structure PendingRule where
  window : Window
  /-- Number of the event that asked for the window to be shown. -/
  sequence : UInt16
  consequences : Consequences
  /-- Events since then, in the order of their arrival. -/
  events : List DisplayEvent
  deriving DecidableEq, Repr

/-- A running classifier. -/
structure Classifier where
  task : Nat
  window : Window
  arguments : List String
  deriving DecidableEq, Repr

namespace Classifier

/-- What a classifier is told: the window, how it calls itself, and what holds without an
answer. -/
def argumentsFor (rule : PendingRule) (named : WindowClass) : List String :=
  [Numeral.hex8 rule.window, named.className, named.instanceName, rule.consequences.render]

/-- The answer of a classifier that ended: its output, if it succeeded and wrote text. -/
def verdict (succeeded : Bool) (output : Bytes) : Option String :=
  if succeeded then Text.decode? output else none

end Classifier

/-- The classifications in flight. -/
structure Pending where
  rules : List PendingRule
  classifiers : List Classifier
  /-- Answers that were not taken up yet, the oldest first. -/
  answers : List (Nat × Option String)
  nextTask : Nat
  deriving DecidableEq, Repr

namespace Pending

def empty : Pending := ⟨[], [], [], 0⟩

def isEmpty (p : Pending) : Bool := p.rules.isEmpty

def contains (p : Pending) (window : Window) : Bool := p.rules.any (·.window == window)

/-- Adds an event to the first rule of its window. -/
def enqueueIn (event : DisplayEvent) : List PendingRule → List PendingRule
  | [] => []
  | rule :: rules =>
    if rule.window = event.window then { rule with events := rule.events ++ [event] } :: rules
    else rule :: enqueueIn event rules

/-- Keeps an event for later, if its window is waiting. -/
def enqueue? (p : Pending) (event : DisplayEvent) : Option Pending :=
  if p.contains event.window then some { p with rules := enqueueIn event p.rules } else none

/-- Lets a window wait for a classifier that was started for it. -/
def track (p : Pending) (rule : PendingRule) (arguments : List String) : Pending :=
  { p with
    rules := p.rules ++ [rule]
    classifiers := p.classifiers ++ [⟨p.nextTask, rule.window, arguments⟩]
    nextTask := p.nextTask + 1 }

def classifier? (p : Pending) (window : Window) : Option Classifier :=
  p.classifiers.find? fun c => c.window == window && !(p.answers.map Prod.fst).contains c.task

/-- Notes how a classifier ended; one that died has no answer. -/
def complete (p : Pending) (task : Nat) (answer : Option String) : Pending :=
  { p with answers := p.answers ++ [(task, answer)] }

/-- Goes through the answers to the first one that settles a window. -/
def resolveFrom (p : Pending) :
    List (Nat × Option String) → List Classifier →
      Option (PendingRule × Option String) × Pending
  | [], classifiers => (none, { p with answers := [], classifiers := classifiers })
  | (task, answer) :: answers, classifiers =>
    match classifiers.find? (·.task == task) with
    | none => resolveFrom p answers classifiers
    | some c =>
      let classifiers := classifiers.filter (·.task != task)
      match p.rules.find? (·.window == c.window) with
      | none => resolveFrom p answers classifiers
      | some rule =>
        (some (rule, answer),
          { p with
            rules := p.rules.eraseP (·.window == c.window)
            classifiers := classifiers
            answers := answers })

/-- The next window that is settled by an answer. -/
def nextResolved (p : Pending) : Option (PendingRule × Option String) × Pending :=
  p.resolveFrom p.answers p.classifiers

/-- Takes all waiting windows out and gives up their classifiers. -/
def drain (p : Pending) : List PendingRule × Pending :=
  (p.rules, { p with rules := [], classifiers := [] })

end Pending

end Tiling
