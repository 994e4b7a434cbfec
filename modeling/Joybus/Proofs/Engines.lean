import Joybus.Proofs.Readiness

/-! The reports of engines in a history, and what a transfer comes to with them. -/
namespace Joybus.Transceiver

open Completion (Report)

variable {α : Type} {d : Direction} {l : Link} {h ev : Trace}

/-- What an event reports on direction `d`, if anything. -/
def Event.report? (d : Direction) : Event → Option Report
  | .marked m _ => if m.dir = d then some m.report else none
  | _ => none

/-- The engine of direction `d` is stopped. -/
def Event.stops (d : Direction) : Event → Bool
  | .acted (.command (.abort e)) _ => e = d
  | _ => false

/-- A wait of `us` microseconds or more begins. -/
def Event.waits (us : Nat) : Event → Bool
  | .delayed n => us ≤ n
  | _ => false

namespace Trace

/-- No engine of direction `d` reported. -/
def Unreported (d : Direction) (h : Trace) : Prop := ∀ e ∈ h, e.report? d = none

/-- No engine of direction `d` reported an error. -/
def Faultless (d : Direction) (h : Trace) : Prop := ∀ e ∈ h, e.report? d ≠ some .error

/-- An engine of direction `d` was started. -/
def Started (d : Direction) (h : Trace) : Prop := ∃ e ∈ h, e.Starts d

/-- An engine of direction `d` did not report, though it had `us` microseconds since its start. -/
def Overdue (d : Direction) (us : Nat) (h : Trace) : Prop :=
  h.Unreported d ∧ ∃ e ∈ h.dropWhile (¬ ·.Starts d), e.waits us

/-- An engine of direction `d` that is started succeeds within `us` microseconds: no error is
reported, and it is not overdue when it is stopped. -/
def Completes (d : Direction) (us : Nat) (h : Trace) : Prop :=
  h.Faultless d ∧ h.Each fun pre e => e.stops d → ¬ pre.Overdue d us

instance (h : Trace) (us : Nat) : Decidable (h.Overdue d us) :=
  inferInstanceAs (Decidable ((∀ e ∈ h, _) ∧ ∃ e ∈ h.dropWhile _, _))

instance (h : Trace) (us : Nat) : Decidable (h.Completes d us) :=
  inferInstanceAs (Decidable ((∀ e ∈ h, _) ∧ Each _ h))

end Trace

open Trace

/-- Before a transfer: the cell is unused and nothing was reported, if only what is asked for is. -/
def Dormant (d : Direction) (l : Link) (h : Trace) : Prop :=
  h.Solicited → l.status d = .notStarted ∧ h.Unreported d

/-- During a transfer: success is in the cell once anything is reported, if only success is. -/
def Awaited (d : Direction) (l : Link) (h : Trace) : Prop :=
  h.Solicited → h.Faultless d → l.status d = .done ∨ l.status d = .pending ∧ h.Unreported d

/-- The engine is started and its report awaited. -/
def Underway (d : Direction) (l : Link) (h : Trace) : Prop := Awaited d l h ∧ h.Started d

theorem report?_of_dir_ne {m : Mark} {s : Completion.Status} (hm : m.dir ≠ d) :
    (Event.marked m s).report? d = none := if_neg hm

theorem Trace.Unreported.concat {e : Event} (hu : h.Unreported d) (he : e.report? d = none) :
    Unreported d (h ++ [e]) := by
  intro x hx
  rcases List.mem_append.1 hx with hx | hx
  · exact hu x hx
  · rw [List.mem_singleton.1 hx, he]

theorem Trace.Faultless.of_append (hf : Faultless d (h ++ ev)) : h.Faultless d := by
  intro e he
  exact hf e (List.mem_append_left ev he)

theorem keeps_dormant : Keeps (¬ ·.Handles d) (· ≠ d) (Dormant d) where
  act a ha x l h hd hs := by
    obtain ⟨hl, hu⟩ := hd hs.of_append
    exact ⟨by rw [status_effect ha, hl], hu.concat rfl⟩
  mark m l h hd hs := by
    obtain ⟨hl, hu⟩ := hd hs.of_append
    have hm := hs.dir_ne hl
    exact ⟨by rw [Link.status_mark, if_neg hm, hl], hu.concat (report?_of_dir_ne hm)⟩
  wake e l h hd hs := by
    rw [Link.status_leaveWaker]
    exact hd hs
  delay us l h hd hs := by
    obtain ⟨hl, hu⟩ := hd hs.of_append
    exact ⟨hl, hu.concat rfl⟩
  take e he r l h _ hd hs := by
    obtain ⟨hl, hu⟩ := hd hs.of_append
    rw [Link.status_take_of_ne l (Ne.symm he)]
    exact ⟨hl, hu.concat rfl⟩

/-- An action that leaves the cell alone. -/
theorem Awaited.act {a : Action} {x : a.Answer} (hw : Awaited d l h)
    (ha : (a.effect x l).status d = l.status d) : Awaited d (a.effect x l) (h ++ [.acted a x]) := by
  intro hs hf
  rw [ha]
  rcases hw hs.of_append hf.of_append with hl | ⟨hl, hu⟩
  · exact .inl hl
  · exact .inr ⟨hl, hu.concat rfl⟩

theorem keeps_awaited : Keeps (¬ ·.Handles d) (· ≠ d) (Awaited d) where
  act a ha x l h hw := hw.act (status_effect ha x l)
  mark m l h hw hs hf := by
    rw [Link.status_mark]
    by_cases hm : m.dir = d
    · have hr := hf (.marked m (l.status m.dir)) (by simp)
      rw [Event.report?, if_pos hm] at hr
      refine .inl ?_
      rw [if_pos hm]
      cases hm : m.report with
      | done => rfl
      | error => exact (hr (congrArg some hm)).elim
    · rw [if_neg hm]
      rcases hw hs.of_append hf.of_append with hl | ⟨hl, hu⟩
      · exact .inl hl
      · exact .inr ⟨hl, hu.concat (report?_of_dir_ne hm)⟩
  wake e l h hw hs hf := by
    rw [Link.status_leaveWaker]
    exact hw hs hf
  delay us l h hw hs hf := by
    rcases hw hs.of_append hf.of_append with hl | ⟨hl, hu⟩
    · exact .inl hl
    · exact .inr ⟨hl, hu.concat rfl⟩
  take e he r l h _ hw hs hf := by
    rw [Link.status_take_of_ne l (Ne.symm he)]
    rcases hw hs.of_append hf.of_append with hl | ⟨hl, hu⟩
    · exact .inl hl
    · exact .inr ⟨hl, hu.concat rfl⟩

theorem keeps_started : Keeps (fun _ => True) (fun _ => True) fun _ h => h.Started d :=
  keeps_mem _

theorem keeps_underway : Keeps (¬ ·.Handles d) (· ≠ d) (Underway d) :=
  keeps_awaited.and (keeps_started.weaken (fun _ _ => trivial) fun _ _ => trivial)

theorem Dormant.arm (hd : Dormant d l h) :
    Awaited d ((Action.arm d).effect () l) (h ++ [.acted (.arm d) ()]) := by
  intro hs _
  refine .inr ⟨?_, (hd hs.of_append).2.concat rfl⟩
  simp [Action.effect, Link.status, Completion.Cell.arm]

/-- A look at the cell finds success, or there was no report. -/
theorem Awaited.look (hw : Awaited d l h) (hs : h.Solicited) (hf : h.Faultless d) :
    (l.status d).report? = some .done ∨ (l.status d).report? = none ∧ h.Unreported d := by
  rcases hw hs hf with hl | ⟨hl, hu⟩
  · exact .inl (by rw [hl]; rfl)
  · exact .inr ⟨by rw [hl]; rfl, hu⟩

theorem Trace.Started.waits {us : Nat} (hs : h.Started d) :
    ∃ e ∈ (h ++ .delayed us :: ev).dropWhile (¬ ·.Starts d), e.waits us := by
  obtain ⟨e, he, hd⟩ := hs
  induction h with
  | nil => simp at he
  | cons x h ih =>
    rw [List.cons_append, List.dropWhile_cons]
    split
    · rename_i hx
      rcases List.mem_cons.1 he with rfl | he
      · simp [hd] at hx
      · exact ih he
    · exact ⟨.delayed us, by simp, by simp [Event.waits]⟩

/-- A wait for a completion ends with success, or the engine is overdue then. -/
theorem completion_underway (us : Nat) (hw : Underway d l h) :
    (Call.completion d us).Ensures
      (fun r _ h' => r = some .done ∨ (h'.Solicited → h'.Faultless d → h'.Overdue d us))
      (fun _ _ => True) l h := by
  obtain ⟨hw, hb⟩ := hw
  rw [Call.ensures_completion]
  refine ⟨?_, ?_⟩
  · intro r hr
    cases r with
    | done => exact .inl rfl
    | error =>
      refine .inr fun hs hf => ?_
      rcases hw.look hs.of_append hf.of_append with hl | ⟨hl, -⟩
      · cases hr.symm.trans hl
      · cases hr.symm.trans hl
  · intro _ ms
    have hm := keeps_awaited.marks ms (keeps_awaited.delay us _ h (keeps_awaited.wake d l h hw))
    rw [Link.markTrace_congr (Link.status_leaveWaker l d)] at hm
    refine ⟨ensuresAll_true, ?_⟩
    by_cases hd : (((l.leaveWaker d).markAll ms).status d).report? = some .done
    · exact .inl hd
    · refine .inr fun hs hf => ?_
      obtain ⟨hl, hu⟩ := (hm.look hs.of_append hf.of_append).resolve_left hd
      rw [hl, consumption, List.append_nil]
      refine ⟨hu, ?_⟩
      rw [List.append_assoc]
      exact hb.waits

theorem Trace.Completes.of_append {us : Nat} (hc : Completes d us (h ++ ev)) :
    h.Completes d us :=
  ⟨hc.1.of_append, (each_append.1 hc.2).1⟩

/-- A transfer is given up when it is overdue, so that it does not complete. -/
theorem giveUp_overdue {Q : α → Link → Trace → Prop} {us : Nat} (a : α)
    (ho : h.Solicited → h.Faultless d → h.Overdue d us) :
    (do Call.performAll (Action.abandon d); Call.reset d; pure a : Call α).Ensures
      (fun r l h' => h'.Solicited → h'.Completes d us → Q r l h') (fun _ _ => True) l h := by
  have keeps : Keeps (fun _ => True) (fun _ => True)
      fun _ h => h.Solicited → ¬ h.Completes d us := by
    refine (Keeps.of_trace (E := fun _ => True)
      (P := fun h => h.Solicited → ¬ h.Completes d us) (fun _ _ => trivial) ?_).weaken
      (fun _ _ _ => trivial) fun _ hd => hd
    intro h e _ hn hs hc
    exact hn hs.of_append hc.of_append
  have stopped : ∀ {x : Unit}, Trace.Solicited (h ++ [.acted (.command (.abort d)) x]) →
      ¬ Completes d us (h ++ [.acted (.command (.abort d)) x]) := by
    intro x hs hc
    exact (each_concat.1 hc.2).2 (by simp [Event.stops]) (ho hs.of_append hc.1.of_append)
  rw [Call.ensures_bind, Call.ensures_performAll]
  intro x ms
  refine (keeps.all (fun _ _ => trivial) (keeps.command (l := l) ms stopped)).mono ?_
  intro l h hn
  refine keeps.perform trivial hn fun _ l h hn => ?_
  intro hs hc
  exact (hn hs hc).elim

end Joybus.Transceiver
