import Joybus.Transceiver.Hardware

/-!
Scripts for simulated hardware. A script answers each kind of use from a queue, and by a default
once the queue is empty.
-/

namespace Joybus.Bench

open Transceiver (Mark Response)

/-- Answers in order, then one answer for ever. -/
structure Queue (α : Type) where
  ahead : List α := []
  default : α
deriving DecidableEq, Repr

namespace Queue
variable {α : Type}

def next (q : Queue α) : α × Queue α :=
  match q.ahead with
  | [] => (q.default, q)
  | a :: rest => (a, { q with ahead := rest })

end Queue

/-- What becomes of a transfer an engine was started on. -/
inductive Fate where
  | done
  | error
  /-- It never reports. -/
  | never
deriving DecidableEq, Repr

/-- The report an engine makes, if any. -/
def Fate.report? : Fate → Option Completion.Report
  | done => some .done
  | error => some .error
  | never => none

/-- The script of one side: a bit-level program and the engine behind it. -/
structure Side where
  flags : Queue Bool := { default := true }
  pushes : Queue Bool := { default := true }
  pulls : Queue (Option Word) := { default := none }
  starts : Queue Fate := { default := .done }
  /-- What the engine writes at each start of a receive. -/
  deliveries : Queue (List Word) := { default := [] }
  /-- The most words the engine moves. -/
  capacity : Nat := 16
  programCounter : Nat
  /-- Where a loaded program begins. -/
  origin : Nat
deriving DecidableEq, Repr

/-- What happens at a look at a delay. -/
inductive DelayStep where
  /-- An engine reports, and the look goes on. -/
  | mark (m : Mark)
  /-- The delay is not over; the next look goes on after this step. -/
  | pending
  /-- The delay is never over. -/
  | stall
deriving DecidableEq, Repr

/-- The script of both sides and of the delays. -/
structure Script where
  tx : Side := { programCounter := 7, origin := 3 }
  rx : Side := { programCounter := 9, origin := 5 }
  /-- The steps of each delay, in the order in which delays begin. -/
  delays : Queue (List DelayStep) := { default := [] }
  /-- The steps left of the delay begun last. -/
  delay : List DelayStep := []
  /-- Whether stopping an engine makes it report a completion. -/
  spurious : Bool := false
deriving DecidableEq, Repr

/-- The outcome of one look at a delay with the given steps left: the reports made, whether the
delay is over, and the steps left then. -/
def lookAtSteps : List DelayStep → List Mark × Bool × List DelayStep
  | [] => ([], true, [])
  | .pending :: rest => ([], false, rest)
  | .stall :: rest => ([], false, .stall :: rest)
  | .mark m :: rest =>
    let (marks, ended, left) := lookAtSteps rest
    (m :: marks, ended, left)

namespace Script

def side (s : Script) : Direction → Side
  | .tx => s.tx
  | .rx => s.rx

def setSide (s : Script) (d : Direction) (x : Side) : Script :=
  match d with
  | .tx => { s with tx := x }
  | .rx => { s with rx := x }

def readFlag (s : Script) (d : Direction) : Bool × Script :=
  let (answer, q) := (s.side d).flags.next
  (answer, s.setSide d { s.side d with flags := q })

def push (s : Script) (d : Direction) : Bool × Script :=
  let (answer, q) := (s.side d).pushes.next
  (answer, s.setSide d { s.side d with pushes := q })

def pull (s : Script) (d : Direction) : Option Word × Script :=
  let (answer, q) := (s.side d).pulls.next
  (answer, s.setSide d { s.side d with pulls := q })

/-- The fate of a transfer the engine of direction `d` is started on. -/
def start (s : Script) (d : Direction) : Fate × Script :=
  let (answer, q) := (s.side d).starts.next
  (answer, s.setSide d { s.side d with starts := q })

/-- The words a started receive delivers. -/
def deliver (s : Script) : List Word × Script :=
  let (answer, q) := s.rx.deliveries.next
  (answer, { s with rx.deliveries := q })

def startDelay (s : Script) : Script :=
  let (steps, q) := s.delays.next
  { s with delays := q, delay := steps }

/-- One look at the delay begun last. -/
def pollDelay (s : Script) : Response Script Bool :=
  let (marks, ended, left) := lookAtSteps s.delay
  ⟨ended, marks, { s with delay := left }⟩

end Script

/-- A change of a side's script: what is given replaces what was there. -/
structure SideChange where
  flags : Option (List Bool) := none
  flagDefault : Option Bool := none
  pushes : Option (List Bool) := none
  pushDefault : Option Bool := none
  pulls : Option (List (Option Word)) := none
  pullDefault : Option (Option Word) := none
  starts : Option (List Fate) := none
  startDefault : Option Fate := none
  deliveries : Option (List (List Word)) := none
  capacity : Option Nat := none
  programCounter : Option Nat := none
  origin : Option Nat := none
deriving DecidableEq, Repr

/-- A change of a script. -/
structure Change where
  tx : SideChange := {}
  rx : SideChange := {}
  delays : Option (List (List DelayStep)) := none
  spurious : Option Bool := none
deriving DecidableEq, Repr

def Queue.change {α : Type} (q : Queue α) (ahead : Option (List α)) (default : Option α) :
    Queue α :=
  ⟨ahead.getD q.ahead, default.getD q.default⟩

def Side.change (s : Side) (c : SideChange) : Side where
  flags := s.flags.change c.flags c.flagDefault
  pushes := s.pushes.change c.pushes c.pushDefault
  pulls := s.pulls.change c.pulls c.pullDefault
  starts := s.starts.change c.starts c.startDefault
  deliveries := s.deliveries.change c.deliveries none
  capacity := c.capacity.getD s.capacity
  programCounter := c.programCounter.getD s.programCounter
  origin := c.origin.getD s.origin

def Script.change (s : Script) (c : Change) : Script where
  tx := s.tx.change c.tx
  rx := s.rx.change c.rx
  delays := s.delays.change c.delays none
  delay := s.delay
  spurious := c.spurious.getD s.spurious

end Joybus.Bench
