import Joybus.Transceiver.Call
import Joybus.Transceiver.Hardware

/-!
Polling calls. A poll runs a call until it ends or stands at a wait that is not over. A call that
is stopped at a wait can be polled again, or dropped, which performs what its wait leaves to undo.
-/

namespace Joybus.Transceiver

open Completion (Report)

variable {σ α : Type}

/-- The trace of a look at a cell that found the given report. -/
def consumption (d : Direction) : Option Report → Trace
  | some r => [.consumed ⟨d, r⟩]
  | none => []

namespace World

/-- Consumes the report in a direction's cell, if there is one. -/
def consume (w : World σ) (d : Direction) : Outcome σ (Option Report) :=
  let found := (w.link.status d).report?
  ⟨found, w.update fun l => { l with cells := l.cells.modify d .take }, consumption d found⟩

/-- A waiter's look at a cell: it leaves its waker and consumes the report, if there is one. -/
def lookAtCell (w : World σ) (d : Direction) : Outcome σ (Option Report) :=
  let polled := (w.link.cells.get d).poll ()
  ⟨polled.1, w.update fun l => { l with cells := l.cells.set d polled.2 }, consumption d polled.1⟩

/-- One poll of a sleep, where `delay` looks at its delay. -/
def pollNap (w : World σ) (delay : World σ → Outcome σ Bool) : Outcome σ (Option Unit) :=
  (delay w).map fun ended => if ended then some () else none

/-- One poll of a completion wait, where `delay` looks at its delay. The cell comes first. Only if
it holds no report the delay is looked at, and if that is over the cell has the last word, since
the report may have come with the deadline. `none` while the wait goes on. -/
def pollCompletion (w : World σ) (d : Direction) (delay : World σ → Outcome σ Bool) :
    Outcome σ (Option (Option Report)) :=
  let seen := w.lookAtCell d
  match seen.value with
  | some r => seen.map fun _ => some (some r)
  | none =>
    let looked := (delay seen.world).after seen.trace
    if looked.value then ((looked.world.consume d).map some).after looked.trace
    else looked.map fun _ => none

end World

namespace Hardware
variable (H : Hardware σ)

/-- Looks at the delay: is it over? -/
def lookAtDelay (w : World σ) : Outcome σ Bool :=
  let r := H.pollDelay w.hardware
  ⟨r.answer, w.absorb r, w.link.markTrace r.marks⟩

/-- Begins a delay and looks at it for the first time. -/
def beginDelay (us : Nat) (w : World σ) : Outcome σ Bool :=
  (H.lookAtDelay { w with hardware := H.startDelay us w.hardware }).after [.delayed us]

/-- The first poll of a wait: its answer, or `none` while it goes on. -/
def enter (w : World σ) : (wait : Wait) → Outcome σ (Option wait.Answer)
  | .nap us => w.pollNap (H.beginDelay us)
  | .completion d us => w.pollCompletion d (H.beginDelay us)

/-- A later poll of a wait, whose delay has begun. -/
def revisit (w : World σ) : (wait : Wait) → Outcome σ (Option wait.Answer)
  | .nap _ => w.pollNap H.lookAtDelay
  | .completion d _ => w.pollCompletion d H.lookAtDelay

end Hardware

/-- A call stopped at a wait. -/
structure Pause (α : Type) where
  wait : Wait
  undo : List Action
  next : wait.Answer → Call α

/-- How far a poll brought a call. -/
inductive Progress (α : Type) where
  | finished (a : α)
  | paused (p : Pause α)

/-- Runs a call until it ends or stands at a wait that is not over at once. -/
def Call.advance (H : Hardware σ) : Call α → World σ → Outcome σ (Progress α)
  | .done a, w => ⟨.finished a, w, []⟩
  | .act a next, w =>
    let s := H.perform w a
    ((next s.value).advance H s.world).after s.trace
  | .wait p undo next, w =>
    let s := H.enter w p
    match s.value with
    | some x => ((next x).advance H s.world).after s.trace
    | none => s.map fun _ => .paused ⟨p, undo, next⟩

/-- A stopped call, followed by another. -/
def Pause.bind {β : Type} (p : Pause α) (f : α → Call β) : Pause β :=
  ⟨p.wait, p.undo, fun x => p.next x >>= f⟩

/-- A call followed by another runs the second where the first ends, and stops where it stops. -/
theorem Call.advance_bind {β : Type} (H : Hardware σ) (c : Call α) (f : α → Call β)
    (w : World σ) :
    (c >>= f).advance H w =
      match (c.advance H w).value with
      | .finished a => ((f a).advance H (c.advance H w).world).after (c.advance H w).trace
      | .paused p => (c.advance H w).map fun _ => .paused (p.bind f) := by
  induction c generalizing w with
  | done a => simp [Call.advance, Outcome.after]
  | act a next ih =>
    simp only [Call.bind_act, Call.advance, ih, Outcome.after]
    split <;> simp_all [Outcome.map]
  | wait p undo next ih =>
    simp only [Call.bind_wait, Call.advance]
    cases h : (H.enter w p).value with
    | none => simp [Outcome.map, Pause.bind]
    | some x =>
      simp only [ih, Outcome.after]
      split <;> simp_all [Outcome.map]

namespace Pause

/-- Polls a stopped call once more. -/
def poll (H : Hardware σ) (p : Pause α) (w : World σ) : Outcome σ (Progress α) :=
  let s := H.revisit w p.wait
  match s.value with
  | some x => ((p.next x).advance H s.world).after s.trace
  | none => s.map fun _ => .paused p

/-- Drops a stopped call. -/
def drop (H : Hardware σ) (p : Pause α) (w : World σ) : Outcome σ Unit :=
  H.performAll w p.undo

end Pause

/-- How a driven call ended. -/
inductive Ending (α : Type) where
  /-- By itself, when `left` more fruitless polls were allowed. -/
  | finished (a : α) (left : Nat)
  | dropped
deriving DecidableEq, Repr

/-- Polls a stopped call until it ends; after `polls` more fruitless polls it is dropped. -/
def Pause.drive (H : Hardware σ) : (polls : Nat) → Pause α → World σ → Outcome σ (Ending α)
  | 0, p, w => (p.drop H w).map fun _ => .dropped
  | polls + 1, p, w =>
    let s := p.poll H w
    match s.value with
    | .finished a => s.map fun _ => .finished a (polls + 1)
    | .paused q => (q.drive H polls s.world).after s.trace

/-- Polls a call until it ends; after `polls` fruitless polls it is dropped. With no poll allowed
it never begins. -/
def Call.drive (H : Hardware σ) (call : Call α) (w : World σ) :
    (polls : Nat) → Outcome σ (Ending α)
  | 0 => ⟨.dropped, w, []⟩
  | polls + 1 =>
    let s := call.advance H w
    match s.value with
    | .finished a => s.map fun _ => .finished a (polls + 1)
    | .paused p => (p.drive H polls s.world).after s.trace

end Joybus.Transceiver
