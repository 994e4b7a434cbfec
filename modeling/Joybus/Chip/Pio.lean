import Joybus.Chip.Dma
import Joybus.Clock

/-!
Bit-level programs on the chip's state machines. The transmit program drives its pin, the receive
program samples it; each has a block of its own, and so its own interrupt flags.
-/

namespace Joybus.Chip

/-- Clock of the chip in Hz. -/
def systemClock : Nat := 125000000

/-- The pins of the board. -/
def txPin : Nat := 15
def rxPin : Nat := 16
def ledPin : Nat := 25
def buttonPin : Nat := 26

/-- The number of instructions of a role's program. -/
def Role.programLength : Role → Nat
  | transmit => 17
  | receive => 9

/-- The pin of the board a role uses. -/
def Role.pin : Role → Nat
  | transmit => txPin
  | receive => rxPin

/-- Shift registers and clock of a program. -/
structure ProgramConfig where
  shiftOut : ShiftConfig := .transmit
  shiftIn : ShiftConfig := .receive
  divider : ClockDivider
deriving DecidableEq, Repr

/-- A program loaded into a state machine. -/
structure Program where
  machine : Machine
  pin : Nat
  origin : Nat
  running : Bool := false
deriving DecidableEq, Repr

/-- The side of the script that a block's programs follow. -/
def scriptSide (block : Nat) : Direction := if block = 0 then .tx else .rx

variable (c : Chip)

/-- Loads the program of a role, stopped and with its pin released. -/
def load (m : Machine) (role : Role) (config : ProgramConfig) : Program × Chip :=
  let origin := (c.script.side (scriptSide m.block)).origin
  let pin := role.pin
  let c := c.log (.loadProgram m.block role.programLength)
  let c := c.log (.claimPin m.block pin)
  let c := c.log (.pullUp pin)
  let c := c.log
    (.configure m origin role pin config.shiftOut config.shiftIn config.divider.toBits)
  let c := match role with
    | .transmit => c.log (.latchLow m pin)
    | .receive => c
  ({ machine := m, pin, origin }, c.log (.releasePin m pin))

namespace Program
variable (p : Program)

/-- Where DMA channels reach a program's FIFOs. -/
def endpoint (d : Direction) : Endpoint where
  addr := 0x50200000 + 0x100000 * p.machine.block + 4 * p.machine.index +
    (match d with | .tx => 0x10 | .rx => 0x20)
  dreq := dreq p.machine.block p.machine.index d
  dir := d

def start : Program × Chip := ({ p with running := true }, c.log (.enable p.machine true))

def stop : Program × Chip := ({ p with running := false }, c.log (.enable p.machine false))

/-- Brings the program back to its first instruction, with empty FIFOs and the line released: a
transmission cut short may have left it driven low. It goes on running if it was. -/
def reset : Chip :=
  let c := c.log (.enable p.machine false)
  let c := c.log (.clearFifos p.machine)
  let c := c.log (.restart p.machine)
  let c := c.log (.releasePin p.machine p.pin)
  let c := c.log (.jump p.machine p.origin)
  if p.running then c.log (.enable p.machine true) else c

def notify : Chip := c.log (.setFlag p.machine.block Transceiver.startFlag)

def programCounter : Nat := (c.script.side (scriptSide p.machine.block)).programCounter

def readFlag (index : Nat) : Bool × Chip :=
  let (answer, script) := c.script.readFlag (scriptSide p.machine.block)
  (answer, log { c with script } (.readFlag p.machine.block index answer))

def clearFlag (index : Nat) : Chip := c.log (.clearFlag p.machine.block index)

def push (word : Word) : Bool × Chip :=
  let (answer, script) := c.script.push (scriptSide p.machine.block)
  (answer, log { c with script } (.push p.machine word answer))

def pull : Option Word × Chip :=
  let (answer, script) := c.script.pull (scriptSide p.machine.block)
  (answer, log { c with script } (.pull p.machine answer))

end Program

end Joybus.Chip
