/-!
# Subscriber records

What is handed over about a subscriber when a successor takes the program's place: the
descriptor of its stream, its FIFO, and what is left of its subscription.
-/

namespace Tiling

/-- A subscriber as it is handed over. -/
structure SubscriberRecord where
  descriptor : Int32
  fifo : Option String
  /-- Topic bits, which may include unknown ones. -/
  topics : UInt32
  budget : Int32
  deriving DecidableEq, Repr

end Tiling
