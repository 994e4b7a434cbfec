import Joybus.Transceiver.Budget
import Joybus.Transceiver.Call

/-!
Sending a frame: take the bus-turn token, hand the words to the hardware, notify the transmit
program.
-/

namespace Joybus

/-- The budget of a polled wait of `total` microseconds in this configuration. -/
def LinkConfig.budget (c : LinkConfig) (total : Nat) : Transceiver.Budget := .new total c.pollStep

@[simp] theorem LinkConfig.remaining_budget (c : LinkConfig) (total : Nat) :
    (c.budget total).remaining = total := rfl

@[simp] theorem LinkConfig.step_budget (c : LinkConfig) (total : Nat) :
    (c.budget total).step = max c.pollInterval 1 := by
  simp [budget, Transceiver.Budget.new, pollStep]

namespace Transceiver

/-- Offers a word to a FIFO until it is taken or the budget is spent. Ends with the budget still
left, or `none` if the word was never taken. -/
def pushWithin (d : Direction) (word : Word) (undo : List Action) (b : Budget) :
    Call (Option Budget) := do
  if ← Call.push d word then return some b
  else if b.remaining = 0 then return none
  else
    Call.nap b.sleep undo
    pushWithin d word undo b.rest
termination_by b.remaining
decreasing_by exact Budget.rest_lt ‹_›

/-- Looks at the bus-turn flag until it is raised or the budget is spent. Nothing needs undoing when
this wait is cut, since the token is not taken yet. -/
def awaitBusTurn (b : Budget) : Call Bool := do
  if ← Call.readFlag .tx busTurnFlag then return true
  else if b.remaining = 0 then return false
  else
    Call.nap b.sleep []
    awaitBusTurn b.rest
termination_by b.remaining
decreasing_by exact Budget.rest_lt ‹_›

/-- Waits for the bus-turn token and takes it; `false` when it does not come in time. -/
def takeBusTurn (c : LinkConfig) : Call Bool := do
  if ← awaitBusTurn (c.budget c.busTurnTimeout) then
    Call.clearFlag .tx busTurnFlag
    return true
  else
    Call.reset .tx
    return false

/-- Copies the words into the buffer the engine reads, and ends with the part of it they take. -/
def stageWords (words : List Word) : Call (List Word) := do
  Call.stage words
  return (← Call.staged words.length).toList

/-- Sends by the engine. -/
def sendDma (words : List Word) (timeout : Nat) : Call (Except TxError Unit) := do
  let staged ← stageWords words
  Call.arm .tx
  Call.setTx .armed
  Call.startTx staged
  Call.notify .tx
  Call.setTx .waiting
  match ← Call.completion .tx timeout with
  | some .done =>
    Call.setTx .idle
    return .ok ()
  | some .error =>
    Call.performAll (Action.abandon .tx)
    Call.reset .tx
    return .error .hardwareFault
  | none =>
    Call.performAll (Action.abandon .tx)
    Call.reset .tx
    return .error .timedOut

/-- Offers words to the transmit FIFO until one is refused. Ends with the words still to be sent,
the refused one first. -/
def fill : List Word → Call (List Word)
  | [] => return []
  | w :: ws => do
    if ← Call.push .tx w then fill ws else return w :: ws

/-- Feeds the remaining words to a program that drains its FIFO, all of them under one budget. -/
def feed : List Word → Budget → Call Bool
  | [], _ => return true
  | w :: ws, b => do
    match ← pushWithin .tx w (Action.scrap .tx) b with
    | some left => feed ws left
    | none => return false

/-- Sends through the FIFO: the program is notified once the FIFO is full, or once all words are
queued. -/
def sendFifo (c : LinkConfig) (words : List Word) (timeout : Nat) : Call (Except TxError Unit) := do
  Call.setTx .armed
  match ← fill words with
  | [] =>
    Call.notify .tx
    Call.setTx .idle
    return .ok ()
  | rest =>
    Call.notify .tx
    Call.setTx .waiting
    if ← feed rest (c.budget timeout) then
      Call.setTx .idle
      return .ok ()
    else
      Call.performAll (Action.scrap .tx)
      return .error .timedOut

/-- Hands a stream to the hardware, once it is known to fit and no other is under way. -/
def sendWords (c : LinkConfig) (words : List Word) (timeout : Nat) :
    Call (Except TxError Unit) := do
  if (← Call.txState) ≠ .idle then return .error .busy
  if (← Call.status .tx) ≠ .notStarted then return .error .busy
  if ← takeBusTurn c then
    match c.mode with
    | .dma => sendDma words timeout
    | .fifo => sendFifo c words timeout
  else return .error .timedOut

/-- Sends one frame. An empty one succeeds without touching the hardware, and one that is too long
fails before anything is armed. -/
def send (c : LinkConfig) (bytes : List Byte) (timeout : Nat) : Call (Except TxError Unit) :=
  match WordStream.encode bytes c.maxFrameBytes with
  | .error e => return .error (.ofFrame e)
  | .ok [] => return .ok ()
  | .ok words =>
    match c.mode with
    | .dma => do
      if (← Call.capacity .tx) < words.length then return .error .frameTooLong
      sendWords c words timeout
    | .fifo => sendWords c words timeout

end Transceiver

end Joybus
