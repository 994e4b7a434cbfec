import Joybus.Transceiver.State

/-!
The steps a call on the transceiver is made of: commands to the hardware, and uses of the link's
own state.
-/

namespace Joybus.Transceiver

/-- The interrupt flag that starts the transmit program. -/
def startFlag : Nat := 0

/-- The interrupt flag the transmit program raises once the line is free again: the bus-turn
token. -/
def busTurnFlag : Nat := 1

/-- A command to one side of the hardware: the bit-level program of a direction, or the engine
that moves its words. -/
inductive Command where
  /-- Reads an interrupt flag of the program. -/
  | flag (d : Direction) (index : Nat)
  | clear (d : Direction) (index : Nat)
  /-- Raises the program's start flag. -/
  | notify (d : Direction)
  | reset (d : Direction)
  /-- Offers a word to the program's FIFO, which may be full. -/
  | push (d : Direction) (word : Word)
  /-- Asks the program's FIFO for a word, which may be empty. -/
  | pull (d : Direction)
  /-- Starts the engine on the words to send. -/
  | startTx (words : List Word)
  /-- Starts the engine on a buffer of `count` words. -/
  | startRx (count : Nat)
  /-- Stops the engine. -/
  | abort (d : Direction)
deriving DecidableEq, Repr

namespace Command

/-- What the hardware answers. Starting a receive answers the words that the engine writes over
the beginning of the buffer. -/
@[reducible] def Answer : Command → Type
  | flag _ _ => Bool
  | push _ _ => Bool
  | pull _ => Option Word
  | startRx _ => List Word
  | clear _ _ | notify _ | reset _ | startTx _ | abort _ => Unit

/-- The side of the hardware a command goes to. -/
def side : Command → Direction
  | flag d _ | clear d _ | notify d | reset d | push d _ | pull d | abort d => d
  | startTx _ => .tx
  | startRx _ => .rx

end Command

/-- One step of a call. -/
inductive Action where
  | command (c : Command)
  /-- Asks how many words a direction's engine moves at most. -/
  | capacity (d : Direction)
  /-- Reads the status of a completion cell. -/
  | status (d : Direction)
  | arm (d : Direction)
  | disarm (d : Direction)
  | txState
  | setTx (s : TxState)
  | setRx (s : RxState)
  | expected
  | setExpected (n : Option Nat)
  /-- Copies the words to send into the buffer the engine reads. -/
  | stage (words : List Word)
  /-- Reads the first `count` staged words, what the engine is started on. -/
  | staged (count : Nat)
  /-- Stores a received word. -/
  | store (index : Nat) (word : Word)
  /-- Reads the first `count` received words. -/
  | fetch (count : Nat)
deriving DecidableEq, Repr

namespace Action

@[reducible] def Answer : Action → Type
  | command c => c.Answer
  | capacity _ => Nat
  | status _ => Completion.Status
  | txState => TxState
  | expected => Option Nat
  | staged count => Buffer (min count WordStream.capacity)
  | fetch _ => List Word
  | arm _ | disarm _ | setTx _ | setRx _ | setExpected _ | stage _ | store _ _ => Unit

/-- Puts a direction's state back to idle. -/
def setIdle : Direction → Action
  | .tx => setTx .idle
  | .rx => setRx .idle

/-- What becomes of an engine transfer that is given up: the engine is stopped, its cell disarmed
and the direction idle. -/
def abandon (d : Direction) : List Action :=
  [command (.abort d), disarm d, setIdle d]

/-- What becomes of a transfer through the FIFO that is given up: there is no engine to stop, but
the program may hold words or a bit count, so it is reset. -/
def scrap (d : Direction) : List Action :=
  [command (.reset d), setIdle d]

end Action

end Joybus.Transceiver
