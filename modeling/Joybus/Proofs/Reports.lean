import Joybus.Transceiver.Poll

/-! Reports change the status of cells and nothing else; a look at a cell adds a waker. -/
namespace Joybus.Transceiver

open Completion (Cell Cells Report Status)

variable {l : Link} {d e : Direction} {m : Mark} {ms ns : List Mark} {h : Trace}

namespace Link

/-- A waiter leaves its waker in a cell. -/
def leaveWaker (l : Link) (d : Direction) : Link :=
  { l with cells := l.cells.modify d fun c => { c with waker := some () } }

/-- The report in a cell is consumed, if there is one. -/
def take (l : Link) (d : Direction) : Link :=
  { l with cells := l.cells.modify d .take }

@[simp] theorem markAll_tx (l : Link) (ms : List Mark) : (l.markAll ms).tx = l.tx := by
  induction ms generalizing l with
  | nil => rfl
  | cons m ms ih => exact ih (l.mark m)

@[simp] theorem markAll_expected (l : Link) (ms : List Mark) :
    (l.markAll ms).expected = l.expected := by
  induction ms generalizing l with
  | nil => rfl
  | cons m ms ih => exact ih (l.mark m)

@[simp] theorem mark_received (l : Link) (m : Mark) : (l.mark m).received = l.received := rfl

@[simp] theorem deposit_tx (l : Link) (c : Command) (x : c.Answer) : (l.deposit c x).tx = l.tx := by
  cases c <;> simp only [deposit]

@[simp] theorem deposit_rx (l : Link) (c : Command) (x : c.Answer) : (l.deposit c x).rx = l.rx := by
  cases c <;> simp only [deposit]

@[simp] theorem deposit_expected (l : Link) (c : Command) (x : c.Answer) :
    (l.deposit c x).expected = l.expected := by
  cases c <;> simp only [deposit]

@[simp] theorem status_deposit (l : Link) (c : Command) (x : c.Answer) (d : Direction) :
    (l.deposit c x).status d = l.status d := by
  cases c <;> simp only [deposit, status]

@[simp] theorem take_received (l : Link) (d : Direction) :
    (l.take d).received = l.received := rfl

theorem status_mark (l : Link) (m : Mark) (d : Direction) :
    (l.mark m).status d = if m.dir = d then .ofReport m.report else l.status d := by
  obtain ⟨e, r⟩ := m
  cases e <;> cases d <;> rfl

@[simp] theorem status_leaveWaker (l : Link) (d e : Direction) :
    (l.leaveWaker d).status e = l.status e := by
  cases d <;> cases e <;> rfl

theorem status_take_of_ne (l : Link) (hd : e ≠ d) : (l.take d).status e = l.status e := by
  cases d <;> cases e <;> first | rfl | exact (hd rfl).elim

theorem status_take_self (l : Link) (d : Direction) :
    (l.take d).status d = if (l.status d).isFinished then .notStarted else l.status d := by
  simp only [take, status, Cells.get_modify, Cell.take]
  split
  · simp_all [Cell.disarm]
  · simp_all

/-- A cell without a report is left alone. -/
theorem take_eq_self (hr : (l.status d).report? = none) : l.take d = l := by
  have hf : ((l.cells.get d).status.isFinished) = false := by
    change (l.status d).isFinished = false
    rw [Status.isFinished, hr, Option.isSome_none]
  cases d <;>
    simp_all [take, Cells.modify, Cells.set, Cells.get, Cell.take]

theorem leaveWaker_mark (l : Link) (m : Mark) (d : Direction) :
    (l.mark m).leaveWaker d = (l.leaveWaker d).mark m := by
  obtain ⟨e, r⟩ := m
  cases e <;> cases d <;> rfl

theorem leaveWaker_markAll (l : Link) (ms : List Mark) (d : Direction) :
    (l.markAll ms).leaveWaker d = (l.leaveWaker d).markAll ms := by
  induction ms generalizing l with
  | nil => rfl
  | cons m ms ih => rw [markAll, ih, leaveWaker_mark]; rfl

@[simp] theorem leaveWaker_leaveWaker (l : Link) (d : Direction) :
    (l.leaveWaker d).leaveWaker d = l.leaveWaker d := by
  cases d <;> rfl

theorem markAll_append (l : Link) (ms ns : List Mark) :
    l.markAll (ms ++ ns) = (l.markAll ms).markAll ns := by
  induction ms generalizing l with
  | nil => rfl
  | cons m ms ih => exact ih (l.mark m)

theorem markTrace_append (l : Link) (ms ns : List Mark) :
    l.markTrace (ms ++ ns) = l.markTrace ms ++ (l.markAll ms).markTrace ns := by
  induction ms generalizing l with
  | nil => rfl
  | cons m ms ih => exact congrArg (List.cons _) (ih (l.mark m))

/-- The trace of reports depends on the statuses alone. -/
theorem markTrace_congr {l l' : Link} (hs : ∀ d, l.status d = l'.status d) (ms : List Mark) :
    l.markTrace ms = l'.markTrace ms := by
  induction ms generalizing l l' with
  | nil => rfl
  | cons m ms ih =>
    have hm : ∀ d, (l.mark m).status d = (l'.mark m).status d := by
      intro d
      rw [status_mark, status_mark, hs]
    rw [markTrace, markTrace, hs, ih hm]

theorem mem_markTrace {x : Event} (hx : x ∈ l.markTrace ms) : ∃ m s, x = .marked m s := by
  induction ms generalizing l with
  | nil => exact (List.not_mem_nil hx).elim
  | cons m ms ih =>
    rcases List.mem_cons.1 hx with hx | hx
    · exact ⟨m, _, hx⟩
    · exact ih hx

end Link

end Joybus.Transceiver
