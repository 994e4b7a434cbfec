import Joybus.Packing

/-!
Configuration of the link, its timing and its self-test.
-/

namespace Joybus

/-- How words move between memory and the bus: by the background engine, or one by one through the
hardware FIFO. -/
inductive TransferMode where
  | dma
  | fifo
deriving DecidableEq, Repr, Inhabited

/-- The longest frame a mode carries. -/
def TransferMode.maxFrameBytes : TransferMode → Nat
  | dma => 16
  | fifo => 32

/-- Configuration of the transceiver. Times are in microseconds. -/
structure LinkConfig where
  mode : TransferMode := .dma
  packing : Packing := .one
  busTurnTimeout : Nat := 2000
  pollInterval : Nat := 2
deriving DecidableEq, Repr, Inhabited

namespace LinkConfig

def maxFrameBytes (c : LinkConfig) : Nat := c.mode.maxFrameBytes

/-- The longest sleep between two looks at the hardware, never zero. -/
def pollStep (c : LinkConfig) : Nat := max c.pollInterval 1

end LinkConfig

/-- Clock and deadlines of the board. -/
structure TimingConfig where
  /-- Clock of the bit programs, in Hz. -/
  pioClock : Nat := 4000000
  /-- Time the receive line gets to settle after start, in milliseconds. -/
  rxSettle : Nat := 200
  /-- Deadline of a send, in microseconds. -/
  txTimeout : Nat := 1000
  /-- Deadline of a receive, in microseconds. -/
  rxTimeout : Nat := 1000
deriving DecidableEq, Repr, Inhabited

/-- The self-test's pace, in milliseconds. -/
structure LoopbackConfig where
  enabled : Bool := true
  interval : Nat := 5000
  interFrame : Nat := 10
deriving DecidableEq, Repr, Inhabited

/-- Everything the configuration text sets. -/
structure BusConfig where
  version : Nat := 0
  link : LinkConfig := {}
  timing : TimingConfig := {}
  loopback : LoopbackConfig := {}
deriving DecidableEq, Repr, Inhabited

namespace BusConfig

/-- The only version of the configuration text there is. -/
def supportedVersion : Nat := 1

/-- The configuration of an empty text. -/
def initial : BusConfig := { version := supportedVersion }

end BusConfig

end Joybus
