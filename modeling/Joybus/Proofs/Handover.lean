import Joybus.Completion

/-! The history of both cells: each report is picked up by the next look at its cell and by no
other, and it wakes the waiter that looked last. -/
namespace Joybus.Completion.Cells

variable {ω : Type} {cs : Cells ω} {d e : Direction} {r : Report} {w : ω} {u : Use ω}
  {us : List (Direction × Use ω)}

/-- The cells after uses in order. -/
def after (cs : Cells ω) (us : List (Direction × Use ω)) : Cells ω :=
  us.foldl (fun cs u => (cs.use u.1 u.2).2.2) cs

/-- A use that asks for the report. -/
def Use.Looks : Use ω → Prop
  | take | poll _ => True
  | arm | disarm | mark _ => False

/-- The report that a use gives back. -/
def Answer.report? : Answer → Option Report
  | nothing => none
  | status s => s.report?
  | polled r => r

/-- None of the uses is of direction `d`. -/
def Apart (d : Direction) (us : List (Direction × Use ω)) : Prop := ∀ u ∈ us, u.1 ≠ d

/-- None of the uses is a poll of direction `d`. -/
def Unpolled (d : Direction) (us : List (Direction × Use ω)) : Prop :=
  ∀ u ∈ us, ∀ w, u ≠ (d, .poll w)

@[simp] theorem status_take (c : Cell ω) : c.take.status.report? = none := by
  obtain ⟨status, waker⟩ := c
  cases status <;> rfl

@[simp] theorem waker_take (c : Cell ω) : c.take.waker = c.waker := by
  unfold Cell.take
  split <;> rfl

theorem status_take_of_report {c : Cell ω} (hr : c.status.report? = some r) :
    c.take.status = .notStarted := by
  rw [Cell.take, if_pos (by rw [Status.isFinished, hr]; rfl), Cell.disarm]

section Uses

/-- A use of one cell leaves the other alone, its waker included. -/
theorem get_use_of_ne (cs : Cells ω) (u : Use ω) (he : e ≠ d) :
    (cs.use d u).2.2.get e = cs.get e := by
  cases u with
  | poll w => exact get_set_of_ne cs _ he
  | _ => exact get_modify_of_ne cs _ he

/-- A look gives back the report in the cell and takes it out. -/
theorem look_eq (cs : Cells ω) (d : Direction) (hu : u.Looks) :
    (cs.use d u).1.report? = (cs.get d).status.report? ∧
      ((cs.use d u).2.2.get d).status = (cs.get d).take.status := by
  cases u with
  | take => exact ⟨rfl, by simp [use]⟩
  | poll w =>
    refine ⟨rfl, ?_⟩
    simp only [use, Cell.poll, get_set, Cell.take]
    split <;> rfl
  | arm | disarm | mark r => exact hu.elim

/-- Only a look gives back a report. -/
theorem looks_of_report (hr : (cs.use d u).1.report? = some r) : u.Looks := by
  cases u with
  | take | poll w => trivial
  | arm | disarm | mark r => cases hr

/-- A report is in a cell right after its marking alone. -/
theorem mark_of_report (hr : ((cs.use d u).2.2.get d).status.report? = some r) : u = .mark r := by
  cases u with
  | arm | disarm => simp [use, Cell.arm, Cell.disarm, Status.report?] at hr
  | mark r' => simpa [use, Cell.mark, Eq.comm] using hr
  | take => simp [use] at hr
  | poll w => simp [use, Cell.poll] at hr

/-- A cell keeps its waker until the next poll. -/
theorem waker_use (cs : Cells ω) (d : Direction) (u : Use ω) :
    ((cs.use d u).2.2.get d).waker =
      match u with
      | .poll w => some w
      | _ => (cs.get d).waker := by
  cases u <;> simp [use, Cell.arm, Cell.disarm, Cell.mark, Cell.poll]

/-- Only a report wakes anybody: the waiter in its own cell. -/
theorem woken_eq (cs : Cells ω) (d : Direction) (u : Use ω) :
    (cs.use d u).2.1 =
      match u with
      | .mark _ => (cs.get d).waker
      | _ => none := by
  cases u <;> rfl

end Uses

section Histories

theorem after_append (cs : Cells ω) (us vs : List (Direction × Use ω)) :
    cs.after (us ++ vs) = (cs.after us).after vs := List.foldl_append

theorem after_cons (cs : Cells ω) (d : Direction) (u : Use ω) (us : List (Direction × Use ω)) :
    cs.after ((d, u) :: us) = (cs.use d u).2.2.after us := rfl

/-- What each of the uses keeps, all of them keep. -/
theorem kept_after {γ : Type} {R : Direction × Use ω → Prop} {f : Cells ω → γ}
    (step : ∀ cs u, R u → f (cs.use u.1 u.2).2.2 = f cs) (cs : Cells ω) (hu : ∀ u ∈ us, R u) :
    f (cs.after us) = f cs := by
  induction us generalizing cs with
  | nil => rfl
  | cons u us ih =>
    obtain ⟨hu, hs⟩ := List.forall_mem_cons.1 hu
    exact (ih (cs.use u.1 u.2).2.2 hs).trans (step cs u hu)

/-- What holds after the uses came with one of them and outlasted the later ones, or it held before
and outlasted all of them. -/
theorem traced_back {P : Cells ω → Prop} {R : Direction × Use ω → Prop}
    {cause : Direction × Use ω}
    (step : ∀ cs u, P (cs.use u.1 u.2).2.2 → u = cause ∨ R u ∧ P cs) (hp : P (cs.after us)) :
    (∃ pre mid, us = pre ++ cause :: mid ∧ ∀ u ∈ mid, R u) ∨ (∀ u ∈ us, R u) ∧ P cs := by
  induction us generalizing cs with
  | nil => exact .inr ⟨by simp, hp⟩
  | cons u us ih =>
    rcases ih hp with ⟨pre, mid, rfl, hm⟩ | ⟨hs, hp⟩
    · exact .inl ⟨u :: pre, mid, rfl, hm⟩
    rcases step cs u hp with rfl | ⟨hu, hp⟩
    · exact .inl ⟨[], us, rfl, hs⟩
    · exact .inr ⟨List.forall_mem_cons.2 ⟨hu, hs⟩, hp⟩

theorem get_after_of_apart (cs : Cells ω) (ha : Apart d us) : (cs.after us).get d = cs.get d :=
  kept_after (f := (·.get d)) (fun cs u hu => get_use_of_ne cs u.2 (Ne.symm hu)) cs ha

theorem waker_after_of_unpolled (cs : Cells ω) (hu : Unpolled d us) :
    ((cs.after us).get d).waker = (cs.get d).waker := by
  refine kept_after (f := fun cs => (cs.get d).waker) ?_ cs hu
  rintro cs ⟨e, u⟩ hu
  by_cases he : d = e
  · subst he
    rw [waker_use]
    cases u with
    | poll w => exact (hu w rfl).elim
    | _ => rfl
  · rw [get_use_of_ne cs u he]

/-- A report in a cell was the last thing that happened there, unless nothing did. -/
theorem report_after (hr : ((cs.after us).get d).status.report? = some r) :
    (∃ pre mid, us = pre ++ (d, .mark r) :: mid ∧ Apart d mid) ∨
      Apart d us ∧ (cs.get d).status.report? = some r := by
  refine traced_back (P := fun cs => (cs.get d).status.report? = some r) ?_ hr
  rintro cs ⟨e, u⟩ hr
  by_cases he : d = e
  · subst he
    exact .inl (congrArg (Prod.mk d) (mark_of_report hr))
  · rw [get_use_of_ne cs u he] at hr
    exact .inr ⟨Ne.symm he, hr⟩

/-- The waker in a cell was left by the last poll there, unless there was none. -/
theorem waker_after (hw : ((cs.after us).get d).waker = some w) :
    (∃ pre mid, us = pre ++ (d, .poll w) :: mid ∧ Unpolled d mid) ∨
      Unpolled d us ∧ (cs.get d).waker = some w := by
  refine traced_back (P := fun cs => (cs.get d).waker = some w) ?_ hw
  rintro cs ⟨e, u⟩ hw
  by_cases he : d = e
  · subst he
    rw [waker_use] at hw
    cases u with
    | poll v =>
      obtain rfl := Option.some.inj hw
      exact .inl rfl
    | _ => exact .inr ⟨by simp, hw⟩
  · rw [get_use_of_ne cs u he] at hw
    exact .inr ⟨by simp [Ne.symm he], hw⟩

end Histories

section Interrupts

/-- A waiter leaves its waker, the first half of a poll. -/
def leave (cs : Cells ω) (d : Direction) (w : ω) : Cells ω :=
  cs.modify d fun c => { c with waker := some w }

/-- Reports in order, as uses. -/
def marks (ms : List (Direction × Report)) : List (Direction × Use ω) :=
  ms.map fun m => (m.1, .mark m.2)

theorem poll_eq_leave (cs : Cells ω) (d : Direction) (w : ω) :
    (cs.use d (.poll w)).1.report? = ((cs.leave d w).use d .take).1.report? ∧
      (cs.use d (.poll w)).2.2 = ((cs.leave d w).use d .take).2.2 := by
  cases d <;> exact ⟨rfl, rfl⟩

theorem leave_after_marks (cs : Cells ω) (d : Direction) (w : ω) (ms : List (Direction × Report)) :
    (cs.leave d w).after (marks ms) = (cs.after (marks ms)).leave d w := by
  induction ms generalizing cs with
  | nil => rfl
  | cons m ms ih =>
    obtain ⟨e, r⟩ := m
    have first : ((cs.leave d w).use e (.mark r)).2.2 = (cs.use e (.mark r)).2.2.leave d w := by
      cases d <;> cases e <;> rfl
    have rest := ih (cs.use e (.mark r)).2.2
    rw [← first] at rest
    exact rest

/-- Reports that arrive while a poll is under way, after it left its waker and before it looks, are
found by that very poll: it comes to the same as a poll made after them. -/
theorem interrupted_poll (cs : Cells ω) (d : Direction) (w : ω) (ms : List (Direction × Report)) :
    let whole := (cs.after (marks ms)).use d (.poll w)
    let torn := ((cs.leave d w).after (marks ms)).use d .take
    torn.1.report? = whole.1.report? ∧ torn.2.2 = whole.2.2 := by
  intro whole torn
  obtain ⟨answer, cells⟩ := poll_eq_leave (cs.after (marks ms)) d w
  rw [← leave_after_marks] at answer cells
  exact ⟨answer.symm, cells.symm⟩

end Interrupts

/-- Every report is consumed once and no wake-up is lost. After any uses of fresh cells: a report
that a use gives back was the last thing that happened to its cell. A report since which nothing
happened to its cell is given back by whoever looks next, and the cell is unused then. Whether or
not the last poll found a report, the next report wakes its waker. No use touches the other cell,
and whatever waker it wakes was left by the last poll of its own. A poll leaves its waker before it
looks, so that the reports in between are not lost either: it comes to the same as a poll made after
them. -/
theorem reports_handed_over (us : List (Direction × Use ω)) (d : Direction) :
    let cs := after {} us
    (∀ u r, (cs.use d u).1.report? = some r →
      ∃ pre mid, us = pre ++ (d, .mark r) :: mid ∧ Apart d mid) ∧
    (∀ pre mid r u, us = pre ++ (d, .mark r) :: mid → Apart d mid → u.Looks →
      (cs.use d u).1.report? = some r ∧ ((cs.use d u).2.2.get d).status = .notStarted) ∧
    (∀ pre mid w r, us = pre ++ (d, .poll w) :: mid → Unpolled d mid →
      (cs.use d (.mark r)).2.1 = some w) ∧
    (∀ u e, e ≠ d → (cs.use d u).2.2.get e = cs.get e) ∧
    (∀ u w, (cs.use d u).2.1 = some w →
      ∃ pre mid, us = pre ++ (d, .poll w) :: mid ∧ Unpolled d mid) ∧
    ∀ w ms, (((cs.leave d w).after (marks ms)).use d .take).1.report? =
        ((cs.after (marks ms)).use d (.poll w)).1.report? ∧
      (((cs.leave d w).after (marks ms)).use d .take).2.2 =
        ((cs.after (marks ms)).use d (.poll w)).2.2 := by
  intro cs
  have fresh : ({} : Cells ω).get d = {} := by cases d <;> rfl
  refine ⟨?_, ?_, ?_, ?_, ?_, interrupted_poll cs d⟩
  · intro u r hr
    rw [(look_eq cs d (looks_of_report hr)).1] at hr
    refine (report_after hr).resolve_right ?_
    rintro ⟨-, hr⟩
    rw [fresh] at hr
    cases hr
  · rintro pre mid r u rfl hm hu
    have found : (cs.get d).status.report? = some r := by
      rw [show cs = _ from after_append .., after_cons, get_after_of_apart _ hm]
      simp [use, Cell.mark]
    obtain ⟨answer, status⟩ := look_eq cs d hu
    exact ⟨answer.trans found, status.trans (status_take_of_report found)⟩
  · rintro pre mid w r rfl hm
    rw [woken_eq, show cs = _ from after_append .., after_cons, waker_after_of_unpolled _ hm,
      waker_use]
  · intro u e he
    exact get_use_of_ne cs u he
  · intro u w hw
    rw [woken_eq] at hw
    cases u with
    | mark r =>
      refine (waker_after hw).resolve_right ?_
      rintro ⟨-, hw⟩
      rw [fresh] at hw
      cases hw
    | arm | disarm | take | poll v => cases hw

/-- Two waiters on one cell, a report there that overtakes another, and a report on the other
cell in between. -/
theorem reports_handed_over_raced :
    let waits : List (Direction × Use Nat) :=
      [(.tx, .arm), (.tx, .poll 1), (.rx, .poll 2), (.tx, .poll 3), (.rx, .arm)]
    let reports : List (Direction × Use Nat) :=
      [(.tx, .mark .done), (.tx, .mark .error), (.rx, .mark .done)]
    ((after {} waits).use .tx (.mark .done)).2.1 = some 3 ∧
      ((after {} (waits ++ reports)).use .tx .take).1.report? = some .error ∧
      (((after {} (waits ++ reports)).use .tx .take).2.2.get .tx).status = .notStarted := by
  intro waits reports
  obtain ⟨-, -, wakes, -, -, -⟩ := reports_handed_over waits .tx
  obtain ⟨-, finds, -, -, -, -⟩ := reports_handed_over (waits ++ reports) .tx
  obtain ⟨found, unused⟩ := finds (waits ++ [(.tx, .mark .done)]) [(.rx, .mark .done)] .error .take
    rfl (by simp [Apart]) trivial
  exact ⟨wakes [(.tx, .arm), (.tx, .poll 1), (.rx, .poll 2)] [(.rx, .arm)] 3 .done rfl
    (by simp [Unpolled]), found, unused⟩

end Joybus.Completion.Cells
