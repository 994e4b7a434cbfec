import Joybus.Transceiver.Poll
import Joybus.Transceiver.Receive

/-!
Sessions: a transceiver over some hardware, used by a sequence of operations. Between operations
engines may report out of turn, and the transceiver may be replaced by a new one.
-/

namespace Joybus.Transceiver

open Completion (Status)

/-- A call that may have to wait. Timeouts are in microseconds. -/
inductive Request where
  | send (bytes : List Byte) (timeout : Nat)
  | arm (len : Nat)
  | finish (timeout : Nat)
  | receive (len timeout : Nat)
  | exchange (bytes : List Byte) (len timeout : Nat)
deriving DecidableEq, Repr

instance decidableEqExcept {ε α : Type} [DecidableEq ε] [DecidableEq α] :
    DecidableEq (Except ε α)
  | .ok a, .ok b => decidable_of_iff (a = b) (by simp)
  | .error e, .error f => decidable_of_iff (e = f) (by simp)
  | .ok _, .error _ | .error _, .ok _ => .isFalse (by simp)

/-- What a request comes back with. -/
inductive Reply where
  | sent (r : Except TxError Unit)
  | armed (r : Except RxError Unit)
  | received (r : Except RxError Frame)
  | exchanged (r : Except ExchangeError Frame)
deriving DecidableEq

/-- The call a request makes. -/
def Request.call (c : LinkConfig) : Request → Call Reply
  | send bytes timeout => .sent <$> Transceiver.send c bytes timeout
  | arm len => .armed <$> armReceive c len
  | finish timeout => .received <$> finishReceive c timeout
  | receive len timeout => .received <$> Transceiver.receive c len timeout
  | exchange bytes len timeout => .exchanged <$> Transceiver.exchange c bytes len timeout

/-- One use of a transceiver or of what it shares with its engines. -/
inductive Operation where
  /-- Makes a request and drops it after `polls` fruitless polls. -/
  | request (r : Request) (polls : Nat)
  | cancel
  /-- An engine reports out of turn. -/
  | disturb (m : Mark)
  /-- Somebody else consumes a report. -/
  | take (d : Direction)
  /-- Drops the transceiver and builds a new one over the same hardware. -/
  | recreate (c : LinkConfig)

/-- What an operation gives back. -/
inductive Result where
  | replied (r : Reply)
  /-- The request was dropped. -/
  | dropped
  | cancelled
  | disturbed
  /-- The status a `take` found. -/
  | taken (s : Status)
  | recreated

/-- A transceiver at work. -/
structure Session (σ : Type) where
  config : LinkConfig
  world : World σ

variable {σ : Type}

/-- What dropping a transceiver performs: both engines are stopped and both cells disarmed, since
the buffers may be used otherwise from then on. -/
def farewell : List Action :=
  [.command (.abort .tx), .disarm .tx, .command (.abort .rx), .disarm .rx]

namespace Session

/-- A new transceiver with zeroed buffers and unused cells. -/
def start (config : LinkConfig) (hardware : σ) : Session σ := ⟨config, {}, hardware⟩

/-- Drops the transceiver. -/
def close (H : Hardware σ) (s : Session σ) : Outcome σ Unit := H.performAll s.world farewell

/-- Drives a call of this session's transceiver. -/
def drive {α : Type} (H : Hardware σ) (s : Session σ) (call : LinkConfig → Call α) (polls : Nat) :
    Outcome σ (Ending α) :=
  (call s.config).drive H s.world polls

/-- One operation: its result, the session after it and its trace. -/
def step (H : Hardware σ) (s : Session σ) : Operation → Result × Session σ × Trace
  | .request r polls =>
    let o := s.drive H r.call polls
    let result := match o.value with
      | .finished reply _ => .replied reply
      | .dropped => .dropped
    (result, { s with world := o.world }, o.trace)
  | .cancel =>
    let o := (cancelReceive s.config).advance H s.world
    (.cancelled, { s with world := o.world }, o.trace)
  | .disturb m =>
    let o := H.disturb s.world m
    (.disturbed, { s with world := o.world }, o.trace)
  | .take d =>
    let o := s.world.consume d
    (.taken (s.world.link.status d), { s with world := o.world }, o.trace)
  | .recreate c =>
    let o := s.close H
    (.recreated, ⟨c, o.world.update Link.renew⟩, o.trace)

/-- Runs operations in order, with the result and trace of each. -/
def run (H : Hardware σ) (s : Session σ) : List Operation → List (Result × Trace) × Session σ
  | [] => ([], s)
  | op :: rest =>
    let (result, next, trace) := s.step H op
    let (others, last) := next.run H rest
    ((result, trace) :: others, last)

end Session

/-- A snapshot of both directions. -/
structure Diagnostics where
  txCounter : Nat
  rxCounter : Nat
  txState : TxState
  rxState : RxState
  txStatus : Status
  rxStatus : Status
deriving DecidableEq, Repr

def World.diagnostics (H : Hardware σ) (w : World σ) : Diagnostics where
  txCounter := H.programCounter .tx w.hardware
  rxCounter := H.programCounter .rx w.hardware
  txState := w.link.tx
  rxState := w.link.rx
  txStatus := w.link.status .tx
  rxStatus := w.link.status .rx

end Joybus.Transceiver
