import Joybus.Direction

/-!
Completion cells. The engine that moves words in the background reports through one cell per
direction; the transceiver arms the cell before a transfer, waits on it and consumes the report.
A waiter leaves its waker in the cell, and each report wakes the waker left last.
-/

namespace Joybus.Completion

/-- What an engine reports about a finished transfer. -/
inductive Report where
  | done
  | error
deriving DecidableEq, Repr

inductive Status where
  | notStarted
  | pending
  | done
  | error
deriving DecidableEq, Repr

namespace Status

def ofReport : Report → Status
  | .done => .done
  | .error => .error

/-- The report a cell in this status holds. -/
def report? : Status → Option Report
  | .done => some .done
  | .error => some .error
  | .notStarted | .pending => none

def isFinished (s : Status) : Bool := s.report?.isSome

@[simp] theorem report?_ofReport (r : Report) : (ofReport r).report? = some r := by
  cases r <;> rfl

end Status

/-- One direction's cell: its status and the waker of the most recent waiter. -/
structure Cell (ω : Type) where
  status : Status := .notStarted
  waker : Option ω := none
deriving DecidableEq, Repr

namespace Cell
variable {ω : Type}

def arm (c : Cell ω) : Cell ω := { c with status := .pending }

def disarm (c : Cell ω) : Cell ω := { c with status := .notStarted }

/-- Records a report, whatever the cell held. The waker to wake is `c.waker`, and it stays. -/
def mark (r : Report) (c : Cell ω) : Cell ω := { c with status := .ofReport r }

/-- Consumes the report, if there is one. -/
def take (c : Cell ω) : Cell ω :=
  if c.status.isFinished then c.disarm else c

/-- One poll of a waiter: it leaves its waker, then consumes the report, if there is one. -/
def poll (w : ω) (c : Cell ω) : Option Report × Cell ω :=
  (c.status.report?, { c with waker := some w }.take)

end Cell

/-- The cells of both directions. -/
structure Cells (ω : Type) where
  tx : Cell ω := {}
  rx : Cell ω := {}
deriving DecidableEq, Repr

namespace Cells
variable {ω : Type}

def get (cs : Cells ω) : Direction → Cell ω
  | .tx => cs.tx
  | .rx => cs.rx

def set (cs : Cells ω) (d : Direction) (c : Cell ω) : Cells ω :=
  match d with
  | .tx => { cs with tx := c }
  | .rx => { cs with rx := c }

def modify (cs : Cells ω) (d : Direction) (f : Cell ω → Cell ω) : Cells ω :=
  cs.set d (f (cs.get d))

@[simp] theorem get_set (cs : Cells ω) (d : Direction) (c : Cell ω) : (cs.set d c).get d = c := by
  cases d <;> rfl

theorem get_set_of_ne (cs : Cells ω) {d e : Direction} (c : Cell ω) (h : e ≠ d) :
    (cs.set d c).get e = cs.get e := by
  cases d <;> cases e <;> simp_all [get, set]

@[simp] theorem get_modify (cs : Cells ω) (d : Direction) (f : Cell ω → Cell ω) :
    (cs.modify d f).get d = f (cs.get d) := get_set ..

theorem get_modify_of_ne (cs : Cells ω) {d e : Direction} (f : Cell ω → Cell ω) (h : e ≠ d) :
    (cs.modify d f).get e = cs.get e := get_set_of_ne _ _ h

/-- A use of one of the two cells. -/
inductive Use (ω : Type) where
  | arm
  | disarm
  | mark (r : Report)
  | take
  | poll (waker : ω)
deriving DecidableEq, Repr

/-- What a use of a cell gives back. -/
inductive Answer where
  | nothing
  /-- The status found by a `take`. -/
  | status (s : Status)
  /-- The report consumed by a poll, `none` while there is none. -/
  | polled (r : Option Report)
deriving DecidableEq, Repr

/-- The effect of one use of direction `d`'s cell: its answer, the waker it wakes and the cells
after it. -/
def use (cs : Cells ω) (d : Direction) : Use ω → Answer × Option ω × Cells ω
  | .arm => (.nothing, none, cs.modify d .arm)
  | .disarm => (.nothing, none, cs.modify d .disarm)
  | .mark r => (.nothing, (cs.get d).waker, cs.modify d (.mark r))
  | .take => (.status (cs.get d).status, none, cs.modify d .take)
  | .poll w => (.polled ((cs.get d).poll w).1, none, cs.set d ((cs.get d).poll w).2)

end Cells

end Joybus.Completion
