import Joybus.Transceiver.Action

/-!
Calls on a transceiver as trees. A call performs actions and goes on with their answers; where it
waits it can be cut, and each wait says what a cut there performs. Every wait of a call is bounded,
so the tree is well-founded and a call always ends if each of its waits does.
-/

namespace Joybus.Transceiver

/-- A point where a call gives up control. -/
inductive Wait where
  /-- A sleep. -/
  | nap (us : Nat)
  /-- A report of a direction's engine, or a deadline. -/
  | completion (d : Direction) (us : Nat)
deriving DecidableEq, Repr

/-- What a wait ends with: a completion wait with the report, or `none` once the deadline has
passed without one. -/
@[reducible] def Wait.Answer : Wait → Type
  | nap _ => Unit
  | completion _ _ => Option Completion.Report

/-- A call that ends with an `α`. -/
inductive Call (α : Type) where
  | done (a : α)
  | act (a : Action) (next : a.Answer → Call α)
  /-- Waits; a cut here performs `undo`. -/
  | wait (w : Wait) (undo : List Action) (next : w.Answer → Call α)

namespace Call
variable {α β : Type}

def bind : Call α → (α → Call β) → Call β
  | done a, f => f a
  | act a next, f => act a fun x => (next x).bind f
  | wait w undo next, f => wait w undo fun x => (next x).bind f

instance : Monad Call where
  pure := done
  bind := bind

@[simp] theorem pure_eq (a : α) : (pure a : Call α) = done a := rfl

@[simp] theorem bind_done (a : α) (f : α → Call β) : (done a >>= f) = f a := rfl

@[simp] theorem bind_act (a : Action) (next : a.Answer → Call α) (f : α → Call β) :
    (act a next >>= f) = act a fun x => next x >>= f := rfl

@[simp] theorem bind_wait (w : Wait) (undo : List Action) (next : w.Answer → Call α)
    (f : α → Call β) : (wait w undo next >>= f) = wait w undo fun x => next x >>= f := rfl

def perform (a : Action) : Call a.Answer := act a done

/-- Performs actions whose answers do not matter. -/
def performAll : List Action → Call Unit
  | [] => done ()
  | a :: rest => act a fun _ => performAll rest

def readFlag (d : Direction) (index : Nat) : Call Bool := perform (.command (.flag d index))

def clearFlag (d : Direction) (index : Nat) : Call Unit := perform (.command (.clear d index))

def notify (d : Direction) : Call Unit := perform (.command (.notify d))

def reset (d : Direction) : Call Unit := perform (.command (.reset d))

def push (d : Direction) (word : Word) : Call Bool := perform (.command (.push d word))

def pull (d : Direction) : Call (Option Word) := perform (.command (.pull d))

def startTx (words : List Word) : Call Unit := perform (.command (.startTx words))

def startRx (count : Nat) : Call Unit := act (.command (.startRx count)) fun _ => done ()

def capacity (d : Direction) : Call Nat := perform (.capacity d)

def status (d : Direction) : Call Completion.Status := perform (.status d)

def arm (d : Direction) : Call Unit := perform (.arm d)

def txState : Call TxState := perform .txState

def setTx (s : TxState) : Call Unit := perform (.setTx s)

def setRx (s : RxState) : Call Unit := perform (.setRx s)

def expected : Call (Option Nat) := perform .expected

def setExpected (n : Option Nat) : Call Unit := perform (.setExpected n)

def stage (words : List Word) : Call Unit := perform (.stage words)

def staged (count : Nat) : Call (Buffer (min count WordStream.capacity)) := perform (.staged count)

def store (index : Nat) (word : Word) : Call Unit := perform (.store index word)

def fetch (count : Nat) : Call (List Word) := perform (.fetch count)

def nap (us : Nat) (undo : List Action) : Call Unit := wait (.nap us) undo done

/-- Waits for the report on an armed engine transfer; a cut here abandons the transfer. -/
def completion (d : Direction) (us : Nat) : Call (Option Completion.Report) :=
  wait (.completion d us) (Action.abandon d) done

end Call

end Joybus.Transceiver
