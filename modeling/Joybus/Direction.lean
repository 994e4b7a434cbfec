/-!
The two directions of the bus.
-/

namespace Joybus

/-- A direction of transfer, seen from this end of the bus. -/
inductive Direction where
  | tx
  | rx
deriving DecidableEq, Repr

namespace Direction

def name : Direction → String
  | tx => "tx"
  | rx => "rx"

def other : Direction → Direction
  | tx => rx
  | rx => tx

@[simp] theorem other_other (d : Direction) : d.other.other = d := by
  cases d <;> rfl

theorem other_ne (d : Direction) : d.other ≠ d := by
  cases d <;> decide

end Direction

end Joybus
