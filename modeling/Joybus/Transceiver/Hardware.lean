import Joybus.Transceiver.Action

/-!
Hardware, and the world it forms with a link. Performing an action changes the world and leaves a
trace of everything that happened.
-/

namespace Joybus.Transceiver

open Completion (Report Status)

/-- A report an engine makes on a direction's cell. -/
structure Mark where
  dir : Direction
  report : Report
deriving DecidableEq, Repr

/-- What a piece of hardware does when it is used: its answer, the reports its engines make
meanwhile, and its next state. -/
structure Response (σ : Type) (α : Type) where
  answer : α
  marks : List Mark
  state : σ

/-- Hardware with states `σ`: both sides and one delay. It may answer anything and report at any
time. -/
structure Hardware (σ : Type) where
  respond : (c : Command) → σ → Response σ c.Answer
  /-- The most words a direction's engine moves. -/
  capacity : Direction → σ → Nat
  /-- Where a direction's program stands. -/
  programCounter : Direction → σ → Nat
  /-- Begins a delay of the given microseconds. -/
  startDelay : Nat → σ → σ
  /-- Looks at the delay begun last: is it over? -/
  pollDelay : σ → Response σ Bool
  /-- An engine reports out of turn. -/
  interrupt : Mark → σ → Response σ Unit

/-- One thing that happened. -/
inductive Event where
  | acted (a : Action) (answer : a.Answer)
  /-- An engine reported while the cell had the status `found`. -/
  | marked (m : Mark) (found : Status)
  /-- A waiter consumed a report. -/
  | consumed (m : Mark)
  /-- A delay began. -/
  | delayed (us : Nat)

abbrev Trace := List Event

namespace Link

/-- Applies one report. -/
def mark (l : Link) (m : Mark) : Link :=
  { l with cells := l.cells.modify m.dir (.mark m.report) }

/-- Applies reports in order. -/
def markAll (l : Link) : List Mark → Link
  | [] => l
  | m :: rest => (l.mark m).markAll rest

/-- The trace of reports made in order from `l` on. -/
def markTrace (l : Link) : List Mark → Trace
  | [] => []
  | m :: rest => .marked m (l.status m.dir) :: (l.mark m).markTrace rest

/-- What a command does to the receive buffer: a started receive lets the engine write at most
`count` words. It is all the same when the engine writes them, since no call looks at the buffer
before the transfer is over. -/
def deposit (l : Link) : (c : Command) → c.Answer → Link
  | .startRx count, words => { l with received := l.received.overwrite (words.take count) }
  | _, _ => l

end Link

/-- The link together with the hardware it drives. -/
structure World (σ : Type) where
  link : Link
  hardware : σ

/-- A result, the world after it and what happened on the way. -/
structure Outcome (σ : Type) (α : Type) where
  value : α
  world : World σ
  trace : Trace

variable {σ α β : Type}

namespace Outcome

/-- Puts what happened earlier in front. -/
def after (o : Outcome σ α) (earlier : Trace) : Outcome σ α :=
  { o with trace := earlier ++ o.trace }

def map (f : α → β) (o : Outcome σ α) : Outcome σ β := { o with value := f o.value }

end Outcome

namespace World

/-- Changes the link alone. -/
def update (w : World σ) (f : Link → Link) : World σ := { w with link := f w.link }

/-- Takes over a response of the hardware, its reports included. -/
def absorb (w : World σ) (r : Response σ α) : World σ :=
  ⟨w.link.markAll r.marks, r.state⟩

/-- An action that concerns the link alone. -/
def settle (w : World σ) (a : Action) (answer : a.Answer) (f : Link → Link) :
    Outcome σ a.Answer :=
  ⟨answer, w.update f, [.acted a answer]⟩

end World

namespace Hardware
variable (H : Hardware σ)

/-- Gives a command to the hardware. -/
def issue (w : World σ) (c : Command) : Outcome σ c.Answer :=
  let r := H.respond c w.hardware
  ⟨r.answer, (w.update (·.deposit c r.answer)).absorb r,
    .acted (.command c) r.answer :: w.link.markTrace r.marks⟩

/-- Performs one action. -/
def perform (w : World σ) : (a : Action) → Outcome σ a.Answer
  | .command c => H.issue w c
  | .capacity d => w.settle (.capacity d) (H.capacity d w.hardware) id
  | .status d => w.settle (.status d) (w.link.status d) id
  | .arm d => w.settle (.arm d) () fun l => { l with cells := l.cells.modify d .arm }
  | .disarm d => w.settle (.disarm d) () fun l => { l with cells := l.cells.modify d .disarm }
  | .txState => w.settle .txState w.link.tx id
  | .setTx s => w.settle (.setTx s) () fun l => { l with tx := s }
  | .setRx s => w.settle (.setRx s) () fun l => { l with rx := s }
  | .expected => w.settle .expected w.link.expected id
  | .setExpected n => w.settle (.setExpected n) () fun l => { l with expected := n }
  | .stage ws => w.settle (.stage ws) () fun l => { l with staged := l.staged.overwrite ws }
  | .staged n => w.settle (.staged n) (w.link.staged.take n) id
  | .store i x => w.settle (.store i x) () fun l =>
      { l with received := l.received.setIfInBounds i x }
  | .fetch n => w.settle (.fetch n) (w.link.received.toList.take n) id

/-- Performs actions whose answers do not matter. -/
def performAll (w : World σ) : List Action → Outcome σ Unit
  | [] => ⟨(), w, []⟩
  | a :: rest =>
    let first := H.perform w a
    (performAll first.world rest).after first.trace

/-- Lets an engine report out of turn. -/
def disturb (w : World σ) (m : Mark) : Outcome σ Unit :=
  let r := H.interrupt m w.hardware
  ⟨(), w.absorb r, w.link.markTrace r.marks⟩

end Hardware

end Joybus.Transceiver
