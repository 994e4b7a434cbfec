/-!
Shift registers of the bit-level programs.
-/

namespace Joybus

/-- Which end of a shift register bits leave or enter by. -/
inductive ShiftDirection where
  | left
  | right
deriving DecidableEq, Repr

/-- How a shift register exchanges words with its FIFO. -/
structure ShiftConfig where
  direction : ShiftDirection
  /-- Whether the register is refilled or emptied on its own at the threshold. -/
  auto : Bool
  /-- The number of bits per word. -/
  threshold : Nat
deriving DecidableEq, Repr

namespace ShiftConfig

/-- Whole words leave, the most significant bit first. -/
def transmit : ShiftConfig := ⟨.left, true, 32⟩

/-- The 24 samples of a byte enter, the first in the most significant place. -/
def receive : ShiftConfig := ⟨.left, true, 24⟩

end ShiftConfig

end Joybus
