import Joybus.Completion
import Joybus.Config.Basic
import Joybus.WordStream

/-!
What a transceiver remembers between and during calls.
-/

namespace Joybus.Transceiver

inductive TxState where
  | idle
  /-- The words are staged and the engine is armed. -/
  | armed
  /-- The transmit program was notified. -/
  | waiting
deriving DecidableEq, Repr

inductive RxState where
  | idle
  /-- The engine is armed and the bit count is published. -/
  | armed
  /-- A call waits for the frame. -/
  | waiting
deriving DecidableEq, Repr

inductive TxError where
  | frameTooLong
  | timedOut
  | hardwareFault
  | busy
deriving DecidableEq, Repr

inductive RxError where
  | frameTooLong
  | timedOut
  | hardwareFault
  | busy
  | notArmed
deriving DecidableEq, Repr

/-- An exchange fails in its send or in its receive. -/
inductive ExchangeError where
  | tx (e : TxError)
  | rx (e : RxError)
deriving DecidableEq, Repr

namespace TxError

def ofFrame : FrameError → TxError
  | .tooLong => .frameTooLong

/-- Whether the same call may succeed when it is made again. -/
def retryable : TxError → Bool
  | timedOut | hardwareFault => true
  | frameTooLong | busy => false

end TxError

namespace RxError

def ofFrame : FrameError → RxError
  | .tooLong => .frameTooLong

@[inherit_doc TxError.retryable]
def retryable : RxError → Bool
  | timedOut | hardwareFault => true
  | frameTooLong | busy | notArmed => false

end RxError

@[inherit_doc TxError.retryable]
def ExchangeError.retryable : ExchangeError → Bool
  | tx e => e.retryable
  | rx e => e.retryable

/-- A buffer of `n` words that an engine reads or writes. -/
abbrev Buffer (n : Nat) := Vector Word n

namespace Buffer
variable {n : Nat}

/-- Writes `words` over the beginning of the buffer; the rest keeps what it held. -/
def overwrite (b : Buffer n) (words : List Word) : Buffer n :=
  Vector.ofFn fun i => words.getD i b[i]

@[simp] theorem getElem_overwrite (b : Buffer n) (words : List Word) (i : Nat) (h : i < n) :
    (b.overwrite words)[i] = words.getD i b[i] := by
  simp [overwrite]

theorem take_overwrite {k : Nat} (b : Buffer n) (words : List Word) (hk : k ≤ n)
    (hw : k ≤ words.length) : (b.overwrite words).toList.take k = words.take k := by
  refine List.ext_getElem ?_ ?_
  · simp
    omega
  · intro i hi hj
    have hi : i < words.length := by
      simp only [List.length_take] at hj
      omega
    simp [List.getD_eq_getElem?_getD, List.getElem?_eq_getElem hi]

/-- Words that fit are read back from the beginning of the buffer. -/
theorem toList_take_overwrite (b : Buffer n) {words : List Word} (fits : words.length ≤ n) :
    ((b.overwrite words).take words.length).toList = words := by
  rw [Vector.toList_take, take_overwrite b words fits (Nat.le_refl _), List.take_length]

end Buffer

/-- The most words a receive takes. -/
def rxCapacity : Nat := 32

/-- The state shared by the calls on one transceiver and the engines it drives. The cells and
buffers outlive the transceiver. -/
structure Link where
  tx : TxState := .idle
  rx : RxState := .idle
  /-- The length a receive is armed for. -/
  expected : Option Nat := none
  cells : Completion.Cells Unit := {}
  staged : Buffer WordStream.capacity := Vector.replicate _ 0
  received : Buffer rxCapacity := Vector.replicate _ 0
deriving DecidableEq

namespace Link

/-- The status of a direction's completion cell. -/
def status (l : Link) (d : Direction) : Completion.Status := (l.cells.get d).status

/-- The link a new transceiver starts from: nothing under way, cells and buffers kept. -/
def renew (l : Link) : Link := { l with tx := .idle, rx := .idle, expected := none }

end Link

end Joybus.Transceiver
