import Joybus.Proofs.Unwinding

/-! Receives that fail or are cut: a bit count that is not taken leaves nothing behind, and once it
is taken the transfer is unwound. -/
namespace Joybus.Transceiver

open Trace

variable {l : Link} {h : Trace} {c : LinkConfig} {len timeout : Nat}

namespace Trace

/-- The program of direction `d` took no word. -/
def Unaccepted (d : Direction) (h : Trace) : Prop := ∀ e ∈ h, ¬ e.accepts d

/-- Nothing of a receive is left to undo: the program took no bit count and was not reset, and no
transfer was started and left. -/
def Unarmed (h : Trace) : Prop := h.Unaccepted .rx ∧ h.Spared .rx

/-- A receive may be under way, with a transfer to stop only where there is an engine. -/
def Receivable (m : TransferMode) (h : Trace) : Prop :=
  h.Unreset .rx ∧ (m = .fifo → h.Stopped .rx)

end Trace

theorem unarmed_nil : Unarmed [] := ⟨by simp [Unaccepted], spared_nil⟩

theorem keeps_unaccepted (d : Direction) :
    Keeps (fun a => ∀ x, ¬ (Event.acted a x).accepts d) (fun _ => True)
      fun _ h => h.Unaccepted d :=
  keeps_forall (E := fun e => ¬ e.accepts d) fun _ he => (inert_of_passive he).2.2.1

theorem keeps_unarmed : Keeps (fun a => (∀ x, ¬ (Event.acted a x).accepts .rx) ∧ a.Aloof .rx)
    (fun _ => True) fun _ => Unarmed :=
  (keeps_unaccepted .rx).both (keeps_spared .rx)

theorem keeps_receivable (m : TransferMode) :
    Keeps (Action.Aloof .rx) (fun _ => True) fun _ h => h.Receivable m :=
  (keeps_unreset .rx).both ((keeps_stopped .rx).given (m = .fifo))

section Arm

/-- A wait for a word to be taken is cut only as long as it is not. -/
theorem pushWithin_unaccepted {d : Direction} {word : Word} {b : Budget} {undo : List Action}
    (hu : ∀ a ∈ undo, ∀ x, ¬ (Event.acted a x).accepts d) (ha : h.Unaccepted d) :
    (pushWithin d word undo b).Ensures (fun _ _ _ => True) (fun _ h => h.Unaccepted d) l h := by
  induction b generalizing l h with
  | spent b spent =>
    rw [pushWithin, if_pos spent, Call.ensures_bind, Call.ensures_push]
    intro taken ms
    cases taken <;> trivial
  | sleep b unspent ih =>
    rw [pushWithin, if_neg unspent, Call.ensures_bind, Call.ensures_push]
    intro taken ms
    cases taken with
    | true => trivial
    | false =>
      have refused := (keeps_unaccepted d).command (l := l) (c := .push d word) (x := false) ms
        (List.forall_mem_append.2 ⟨ha, by simp⟩)
      simp only [Bool.false_eq_true, if_false, Call.ensures_bind, Call.ensures_nap]
      refine ((keeps_unaccepted d).wait (p := .nap _) trivial refused).mono ?_ ?_
      · intro l h ha
        exact (keeps_unaccepted d).all hu ha
      · intro _ l h ha
        exact ih ha

theorem publish_unaccepted {undo : List Action}
    (hu : ∀ a ∈ undo, ∀ x, ¬ (Event.acted a x).accepts .rx) (ha : h.Unaccepted .rx) :
    (publish c len undo).Ensures (fun _ _ _ => True) (fun _ h => h.Unaccepted .rx) l h := by
  rw [publish, Call.ensures_bind]
  exact (pushWithin_unaccepted hu ha).mono (fun _ _ _ _ => trivial) fun _ _ ha => ha

theorem armDma_unwinds (c : LinkConfig) (len : Nat) (hu : h.Unarmed) :
    (armDma c len).Ensures
      (fun r _ h => ((Reply.armed r).Failed → h.ResetLast .rx ∧ h.Stopped .rx) ∧
        (r = .ok () → h.Unreset .rx))
      (fun _ => Unarmed) l h := by
  have keeps := (keeps_unreset .rx).both (keeps_unaccepted .rx)
  refine keeps.perform (by simp) ⟨hu.2.1, hu.1⟩ fun n l h hk => ?_
  split
  · exact ⟨False.elim, by simp⟩
  refine keeps.perform (by simp) hk fun _ l h hk => ?_
  rw [Call.ensures_bind, Call.ensures_startRx]
  refine keeps.reach_act (fun x => keeps.act (.command (.startRx _)) (by simp) x l h hk)
    fun _ l h hk => ?_
  refine keeps.perform (by simp) hk fun _ l h hk => ?_
  obtain ⟨hu, ha⟩ := hk
  -- One wait walked twice: a cut stops the engine, and it comes only while the bit count is
  -- refused.
  have published : (publish c len (Action.abandon .rx)).Ensures (fun _ _ h => h.Unreset .rx)
      (fun _ => CutShort .dma .rx) l h := by
    have pushes : (publish c len (Action.abandon .rx)).Uses (Action.ResetsNot .rx)
        fun p undo => p.IsNap ∧ undo = Action.abandon .rx :=
      publish_uses (by simp) fun _ => ⟨trivial, rfl⟩
    refine (keeps_unreset .rx).uses pushes (fun _ ha => ha) (fun p _ _ => p.within_any) ?_ hu
    rintro p undo ⟨-, rfl⟩ l h hu
    exact abandon_cutShort hu
  have refused : (publish c len (Action.abandon .rx)).Ensures (fun _ _ _ => True)
      (fun _ h => h.Unaccepted .rx) l h :=
    publish_unaccepted (by simp [Action.abandon, Action.setIdle]) ha
  rw [Call.ensures_bind]
  refine (published.and refused).mono ?_ ?_
  · rintro taken l h ⟨hu, -⟩
    cases taken with
    | false =>
      refine (giveUp_resets _ hu).imp ?_
      rintro _ l h ⟨rfl, hr, hs, -⟩
      exact ⟨fun _ => ⟨hr, hs⟩, by simp⟩
    | true =>
      refine (keeps_unreset .rx).perform (by simp) hu fun _ l h hu => ?_
      exact ⟨False.elim, fun _ => hu⟩
  · rintro l h ⟨⟨hu, hs, -⟩, ha⟩
    exact ⟨ha, hu, hs⟩

theorem armFifo_unwinds (c : LinkConfig) (len : Nat) (hu : h.Unarmed) :
    (armFifo c len).Ensures
      (fun r _ h => ((Reply.armed r).Failed → h.ResetLast .rx ∧ h.Stopped .rx) ∧
        (r = .ok () → h.Spared .rx))
      (fun _ => Unarmed) l h := by
  obtain ⟨ha, hu⟩ := hu
  have published : (publish c len []).Ensures (fun _ _ h => h.Spared .rx)
      (fun _ h => h.Spared .rx) l h := by
    have pushes : (publish c len []).Uses (Action.Aloof .rx) fun p undo => p.IsNap ∧ undo = [] :=
      publish_uses (by simp) fun _ => ⟨trivial, rfl⟩
    refine (keeps_spared .rx).uses pushes (fun _ ha => ha) (fun p _ _ => p.within_any) ?_ hu
    rintro p undo ⟨-, rfl⟩ l h hk
    exact hk
  have refused : (publish c len []).Ensures (fun _ _ _ => True)
      (fun _ h => h.Unaccepted .rx) l h := publish_unaccepted (by simp) ha
  rw [armFifo, Call.ensures_bind]
  refine (published.and refused).mono ?_ ?_
  · rintro taken l h ⟨hu, -⟩
    cases taken with
    | false =>
      refine reset_unwinds hu fun l h hr => ?_
      exact ⟨fun _ => hr, by simp⟩
    | true =>
      refine (keeps_spared .rx).perform (by simp) hu fun _ l h hu => ?_
      refine (keeps_spared .rx).perform (by simp) hu fun _ l h hu => ?_
      exact ⟨False.elim, fun _ => hu⟩
  · rintro l h ⟨hu, ha⟩
    exact ⟨ha, hu⟩

/-- Arming a receive that fails has reset the program once and last, and has stopped what was
started; if it is cut nothing is left to undo. -/
theorem armReceive_unwinds (c : LinkConfig) (len : Nat) (hu : h.Unarmed) :
    (armReceive c len).Ensures
      (fun r _ h => ((Reply.armed r).Failed → h.ResetLast .rx ∧ h.Stopped .rx) ∧
        (r = .ok () → h.Receivable c.mode))
      (fun _ => Unarmed) l h := by
  unfold armReceive
  split
  · exact ⟨False.elim, nofun⟩
  refine keeps_unarmed.perform (by simp) hu fun expected l h hu => ?_
  split
  · exact ⟨False.elim, nofun⟩
  refine keeps_unarmed.perform (by simp) hu fun status l h hu => ?_
  split
  · exact ⟨False.elim, nofun⟩
  split
  · refine keeps_unarmed.perform (by simp) hu fun _ l h hu => ?_
    exact ⟨False.elim, fun _ => ⟨hu.2.1, fun _ => hu.2.2⟩⟩
  cases hm : c.mode with
  | dma =>
    refine (armDma_unwinds c len hu).mono ?_ fun _ _ hu => hu
    rintro r l h ⟨failed, ready⟩
    exact ⟨failed, fun hr => ⟨ready hr, nofun⟩⟩
  | fifo =>
    refine (armFifo_unwinds c len hu).mono ?_ fun _ _ hu => hu
    rintro r l h ⟨failed, ready⟩
    exact ⟨failed, fun hr => ⟨(ready hr).1, fun _ => (ready hr).2⟩⟩

end Arm

section Finish

theorem finishDma_unwinds (c : LinkConfig) (len timeout : Nat) (hu : h.Unreset .rx) :
    (finishDma c len timeout).Ensures
      (fun r _ h => (Reply.received r).Failed → h.ResetLast .rx ∧ h.Halted .rx)
      (fun _ => CutShort .dma .rx) l h := by
  have failed : ∀ {r : Except RxError Frame} {l h}, Unreset .rx h →
      (do Call.performAll (Action.abandon .rx); Call.reset .rx; pure r : Call _).Ensures
        (fun r _ h => (Reply.received r).Failed → h.ResetLast .rx ∧ h.Halted .rx)
        (fun _ => CutShort .dma .rx) l h := by
    intro r l h hu
    exact (giveUp_resets r hu).imp fun _ _ _ hr _ => hr.2
  refine (keeps_unreset .rx).perform (by simp) hu fun _ l h hu => ?_
  refine completion_unwinds hu fun r l h hu => ?_
  cases r with
  | none => exact failed hu
  | some r =>
    cases r with
    | done =>
      refine keeps_true.perform trivial trivial fun _ l h _ => ?_
      exact keeps_true.perform trivial trivial fun _ _ _ _ hf => hf.elim
    | error => exact failed hu

theorem finishFifo_unwinds (c : LinkConfig) (len timeout : Nat) (hu : h.Spared .rx) :
    (finishFifo c len timeout).Ensures
      (fun r _ h => (Reply.received r).Failed → h.ResetLast .rx ∧ h.Stopped .rx)
      (fun _ => CutShort .fifo .rx) l h := by
  refine (keeps_spared .rx).perform (by simp) hu fun _ l h hu => ?_
  have collected : (collect (c.packing.wordCount len) 0 (c.budget timeout)).Uses (Action.Aloof .rx)
      fun p undo => p.IsNap ∧ undo = Action.scrap .rx :=
    collect_uses (by simp) (by simp) fun _ => ⟨trivial, rfl⟩
  refine fifo_unwinds collected hu fun all l h hu => ?_
  cases all with
  | false =>
    rw [if_neg (by simp), Call.ensures_bind, Call.ensures_performAll]
    exact (scrap_cutShort hu).mono fun _ _ hr _ => hr
  | true =>
    refine keeps_true.perform trivial trivial fun _ l h _ => ?_
    exact keeps_true.perform trivial trivial fun _ _ _ _ hf => hf.elim

/-- A wait for a frame that fails has reset the program once and last and has stopped the engine, if
there is one; a wait that is cut leaves the transfer cut short. -/
theorem finishReceive_unwinds (c : LinkConfig) (timeout : Nat) (hp : h.Receivable c.mode) :
    (finishReceive c timeout).Ensures
      (fun r _ h => (Reply.received r).Failed → h.ResetLast .rx ∧ h.Stopped .rx ∧
        (c.mode = .dma → ∃ e ∈ h, e.stops .rx))
      (fun _ => CutShort c.mode .rx) l h := by
  rw [finishReceive, Call.ensures_bind, Call.ensures_expected, Action.Ensures]
  cases he : l.expected with
  | none => exact False.elim
  | some len =>
    rw [Call.ensures_bind, Call.ensures_setExpected, Action.Ensures]
    have keeps := keeps_receivable c.mode
    have taken := keeps.act (.setExpected none) (by simp) () l _
      (keeps.act .expected (by simp) (some len) l h hp)
    split
    · exact False.elim
    cases hm : c.mode with
    | dma =>
      refine (finishDma_unwinds c len timeout taken.1).imp ?_
      intro r l h failed hf
      obtain ⟨hr, hs, he⟩ := failed hf
      exact ⟨hr, hs, fun _ => he⟩
    | fifo =>
      refine (finishFifo_unwinds c len timeout ⟨taken.1, taken.2 hm⟩).imp ?_
      intro r l h failed hf
      obtain ⟨hr, hs⟩ := failed hf
      exact ⟨hr, hs, by simp⟩

/-- A receive that is cut waited for its bit count to be taken, or it leaves its transfer cut
short. -/
theorem receive_unwinds (c : LinkConfig) (len timeout : Nat) (hu : h.Unarmed) :
    (receive c len timeout).Ensures
      (fun r _ h => (Reply.received r).Failed → h.ResetLast .rx ∧ h.Stopped .rx)
      (fun _ h => h.Unarmed ∨ h.CutShort c.mode .rx) l h := by
  rw [receive, Call.ensures_bind]
  refine (armReceive_unwinds c len hu).mono ?_ fun _ _ hu => .inl hu
  rintro r l h ⟨failed, ready⟩
  cases r with
  | error e => cases e <;> exact failed
  | ok =>
    refine (finishReceive_unwinds c timeout (ready rfl)).mono ?_ fun _ _ hc => .inr hc
    intro r l h failed hf
    obtain ⟨hr, hs, -⟩ := failed hf
    exact ⟨hr, hs⟩

end Finish

end Joybus.Transceiver
