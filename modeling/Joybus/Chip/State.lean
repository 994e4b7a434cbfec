import Joybus.Bench.Script
import Joybus.Shift

/-!
The microcontroller as far as the bus uses it: two blocks of programmable state machines, whose
answers follow a script, and the DMA engine with its interrupt registers. Every access to a
register is logged.
-/

namespace Joybus.Chip

/-- A DMA channel number. -/
abbrev ChannelId := Fin 16

/-- A state machine: its block and its number there. -/
structure Machine where
  block : Nat
  index : Nat
deriving DecidableEq, Repr

/-- What a program does with its pin. -/
inductive Role where
  /-- It drives the pin. -/
  | transmit
  /-- It samples the pin. -/
  | receive
deriving DecidableEq, Repr

/-- What a transfer reads from or writes to: a register of a FIFO, or words in memory. -/
inductive Address where
  | memory
  | register (n : Nat)
deriving DecidableEq, Repr

/-- The place at an address: the state machine blocks have theirs between two bounds. -/
def Address.ofNat (n : Nat) : Address :=
  if 0x50200000 ≤ n ∧ n < 0x50400000 then register n else memory

/-- One access to the chip, or a pause between two. -/
inductive Access where
  | loadProgram (block length : Nat)
  | claimPin (block pin : Nat)
  | pullUp (pin : Nat)
  | configure (m : Machine) (origin : Nat) (role : Role) (pin : Nat)
      (shiftOut shiftIn : ShiftConfig) (divider : BitVec 24)
  | latchLow (m : Machine) (pin : Nat)
  | releasePin (m : Machine) (pin : Nat)
  | enable (m : Machine) (on : Bool)
  | clearFifos (m : Machine)
  | restart (m : Machine)
  | jump (m : Machine) (address : Nat)
  | push (m : Machine) (word : Word) (taken : Bool)
  | pull (m : Machine) (word : Option Word)
  | readFlag (block index : Nat) (value : Bool)
  | clearFlag (block index : Nat)
  | setFlag (block index : Nat)
  /-- A write to the interrupt enables of a line. -/
  | writeEnables (line : Nat) (value : Word)
  /-- An acknowledgement of interrupts on a line. -/
  | acknowledge (line : Nat) (mask : Word)
  | abort (mask : Word)
  | readAddress (ch : ChannelId) (a : Address)
  | writeAddress (ch : ChannelId) (a : Address)
  | transferCount (ch : ChannelId) (n : Nat)
  /-- A channel is configured, its errors are cleared and it starts. -/
  | trigger (ch : ChannelId) (request : Byte) (incrementRead incrementWrite : Bool)
  /-- A channel takes words from memory. -/
  | take (ch : ChannelId) (words : List Word)
  /-- The interrupt of the bus's line is raised. -/
  | interrupt
  | delay (us : Nat)
  /-- A task sleeps, with the self-test's counts at that time. -/
  | sleep (ms passes failures : Nat)
deriving DecidableEq, Repr

/-- The status of a DMA channel. -/
structure ChannelState where
  busy : Bool := false
  error : Bool := false
deriving DecidableEq, Repr

end Joybus.Chip

namespace Joybus

/-- The state of the chip. -/
structure Chip where
  script : Bench.Script
  /-- Raw interrupts, one bit per channel. -/
  raw : Word := 0
  /-- The interrupts enabled on line 0, which other drivers serve. -/
  enable0 : Word := 0xFFF
  /-- The interrupts enabled on line 1, which is the bus's. -/
  enable1 : Word := 0
  channels : Vector Chip.ChannelState 16 := Vector.replicate _ {}
  /-- The channel claimed for each direction. -/
  txClaim : Option Chip.ChannelId := none
  rxClaim : Option Chip.ChannelId := none
  /-- Reports made to the completion cells and not handed over yet, oldest first. -/
  reports : List Transceiver.Mark := []
  /-- All accesses, newest first. -/
  accesses : List Chip.Access := []
deriving DecidableEq

namespace Chip

def log (c : Chip) (a : Access) : Chip := { c with accesses := a :: c.accesses }

/-- The accesses since the last call, oldest first. -/
def takeLog (c : Chip) : List Access × Chip :=
  (c.accesses.reverse, { c with accesses := [] })

/-- The reports since the last call, oldest first. -/
def takeReports (c : Chip) : List Transceiver.Mark × Chip :=
  (c.reports, { c with reports := [] })

end Chip

end Joybus
