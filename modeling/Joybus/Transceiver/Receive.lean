import Joybus.Transceiver.Send

/-!
Receiving a frame, in two halves: arming the receive side for a length, and waiting for the frame.
-/

namespace Joybus.Transceiver

/-- Publishes the bit count to the receive program; `false` when it is not taken in time. -/
def publish (c : LinkConfig) (len : Nat) (undo : List Action) : Call Bool := do
  return (← pushWithin .rx (WordStream.header len) undo (c.budget c.busTurnTimeout)).isSome

/-- Arms the engine, then publishes the bit count. -/
def armDma (c : LinkConfig) (len : Nat) : Call (Except RxError Unit) := do
  let count := c.packing.wordCount len
  if (← Call.capacity .rx) < count then return .error .frameTooLong
  Call.arm .rx
  Call.startRx count
  Call.setRx .armed
  if ← publish c len (Action.abandon .rx) then
    Call.setExpected (some len)
    return .ok ()
  else
    Call.performAll (Action.abandon .rx)
    Call.reset .rx
    return .error .timedOut

/-- Without an engine the bit count is all there is to arm. -/
def armFifo (c : LinkConfig) (len : Nat) : Call (Except RxError Unit) := do
  if ← publish c len [] then
    Call.setRx .armed
    Call.setExpected (some len)
    return .ok ()
  else
    Call.reset .rx
    return .error .timedOut

/-- Arms the receive side for a frame of `len` bytes. -/
def armReceive (c : LinkConfig) (len : Nat) : Call (Except RxError Unit) := do
  if c.maxFrameBytes < len then return .error .frameTooLong
  if (← Call.expected).isSome then return .error .busy
  if (← Call.status .rx) ≠ .notStarted then return .error .busy
  if len = 0 then
    Call.setExpected (some 0)
    return .ok ()
  match c.mode with
  | .dma => armDma c len
  | .fifo => armFifo c len

/-- Decodes the first received words. -/
def decodeReceived (c : LinkConfig) (len : Nat) : Call Frame := do
  return c.packing.decodeFrame (← Call.fetch (c.packing.wordCount len)) len

/-- Waits for the engine to fill the buffer. -/
def finishDma (c : LinkConfig) (len timeout : Nat) : Call (Except RxError Frame) := do
  Call.setRx .waiting
  match ← Call.completion .rx timeout with
  | some .done =>
    Call.setRx .idle
    return .ok (← decodeReceived c len)
  | some .error =>
    Call.performAll (Action.abandon .rx)
    Call.reset .rx
    return .error .hardwareFault
  | none =>
    Call.performAll (Action.abandon .rx)
    Call.reset .rx
    return .error .timedOut

/-- Asks the receive FIFO for a word until there is one or the budget is spent. Ends with the word
and the budget still left. -/
def pullWithin (b : Budget) : Call (Option (Word × Budget)) := do
  match ← Call.pull .rx with
  | some w => return some (w, b)
  | none =>
    if b.remaining = 0 then return none
    else
      Call.nap b.sleep (Action.scrap .rx)
      pullWithin b.rest
termination_by b.remaining
decreasing_by exact Budget.rest_lt ‹_›

/-- Collects `missing` more words, the next one into place `index`, all of them under one
budget. -/
def collect : (missing index : Nat) → Budget → Call Bool
  | 0, _, _ => return true
  | missing + 1, index, b => do
    match ← pullWithin b with
    | some (w, left) =>
      Call.store index w
      collect missing (index + 1) left
    | none => return false

/-- Reads the words from the FIFO. -/
def finishFifo (c : LinkConfig) (len timeout : Nat) : Call (Except RxError Frame) := do
  Call.setRx .waiting
  if ← collect (c.packing.wordCount len) 0 (c.budget timeout) then
    Call.setRx .idle
    return .ok (← decodeReceived c len)
  else
    Call.performAll (Action.scrap .rx)
    return .error .timedOut

/-- Waits for the frame the receive side is armed for. -/
def finishReceive (c : LinkConfig) (timeout : Nat) : Call (Except RxError Frame) := do
  match ← Call.expected with
  | none => return .error .notArmed
  | some len =>
    Call.setExpected none
    if len = 0 then return .ok .empty
    match c.mode with
    | .dma => finishDma c len timeout
    | .fifo => finishFifo c len timeout

/-- Gives up an armed receive. Does nothing if there is none. -/
def cancelReceive (c : LinkConfig) : Call Unit := do
  if (← Call.expected).isSome then
    Call.setExpected none
    match c.mode with
    | .dma => Call.performAll [.command (.abort .rx), .disarm .rx]
    | .fifo => pure ()
    Call.reset .rx
    Call.setRx .idle

/-- Receives one frame of `len` bytes. -/
def receive (c : LinkConfig) (len timeout : Nat) : Call (Except RxError Frame) := do
  match ← armReceive c len with
  | .error e => return .error e
  | .ok _ => finishReceive c timeout

/-- Sends a request and receives its response. The receive is armed first, so that no bit of the
response is missed; it is cancelled if the send fails. -/
def exchange (c : LinkConfig) (bytes : List Byte) (len timeout : Nat) :
    Call (Except ExchangeError Frame) := do
  if c.maxFrameBytes < bytes.length then return .error (.tx .frameTooLong)
  match ← armReceive c len with
  | .error e => return .error (.rx e)
  | .ok _ =>
    match ← send c bytes timeout with
    | .error e =>
      cancelReceive c
      return .error (.tx e)
    | .ok _ =>
      match ← finishReceive c timeout with
      | .error e => return .error (.rx e)
      | .ok frame => return .ok frame

end Joybus.Transceiver
