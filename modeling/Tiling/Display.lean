import Tiling.Client
import Tiling.Topic
/-!
# Display

What the window manager asks of the display, what the display reports, and what is announced to
subscribers. Both kinds of output are data: an operation on the window model answers with them,
in the order in which they happen.
-/

namespace Tiling

/-- A request to the display. Creating a feedback window records the identifier that was
granted. -/
inductive Request where
  | stackAbove (window sibling : Window)
  | stackBelow (window sibling : Window)
  /-- Publishes the stacked windows, bottom first. -/
  | clientList (windows : List Window)
  | configure (window : Window) (rect : Rect)
  | map (window : Window)
  | unmap (window : Window)
  /-- Asks for changes of the properties of a window. -/
  | watch (window : Window)
  | focus (window : Option Window)
  | createFeedback (rect : Rect) (color : UInt32) (granted : Option Window)
  | destroy (window : Window)
  | readClass (window : Window)
  | readHints (window : Window)
  deriving DecidableEq, Repr

/-- A line for the subscribers of some topics. -/
structure Message where
  topics : Topics
  text : String
  deriving DecidableEq, Repr

/-- A request or a message. -/
inductive Effect where
  | request (r : Request)
  | message (m : Message)
  deriving DecidableEq, Repr

namespace Effect

def request? : Effect → Option Request
  | .request r => some r
  | .message _ => none

def message? : Effect → Option Message
  | .request _ => none
  | .message m => some m

end Effect

/-- Something that happened on the display. -/
inductive DisplayEvent where
  /-- A window asks to be shown; the display numbers its events. -/
  | mapRequest (window : Window) (sequence : UInt16)
  | unmapped (window : Window)
  | destroyed (window : Window)
  | configureRequest (window : Window) (rect : Rect)
  /-- The hints of a window changed. -/
  | hintsChanged (window : Window)
  deriving DecidableEq, Repr

namespace DisplayEvent

def window : DisplayEvent → Window
  | .mapRequest w _ => w
  | .unmapped w => w
  | .destroyed w => w
  | .configureRequest w _ => w
  | .hintsChanged w => w

end DisplayEvent

/-- What a window calls itself. -/
structure WindowClass where
  className : String
  instanceName : String
  deriving DecidableEq, Repr

namespace WindowClass

/-- A window that does not say what it is. -/
def unknown : WindowClass := ⟨"", ""⟩

end WindowClass

/-- The answers that the display gives while events are handled. -/
structure Screen where
  classOf : Window → WindowClass
  isUrgent : Window → Bool

/-- Identifiers of feedback windows, in the order in which they will be asked for. -/
structure FeedbackIds where
  answer : Nat → Option Window
  asked : Nat

namespace FeedbackIds

/-- No feedback window is ever granted. -/
def unavailable : FeedbackIds := ⟨fun _ => none, 0⟩

/-- Identifiers counting up from `first` in steps, `count` of them. -/
def counting (first step count : Nat) : FeedbackIds :=
  ⟨fun k => if k < count then some (UInt32.ofNat (first + k * step)) else none, 0⟩

def next (ids : FeedbackIds) : Option Window × FeedbackIds :=
  (ids.answer ids.asked, { ids with asked := ids.asked + 1 })

end FeedbackIds

end Tiling
