import Joybus.Proofs.Readiness
import Joybus.Proofs.Unwinding

/-! What the receive side notes of itself: it knows a length only while a receive is armed, and
without one it is idle. -/
namespace Joybus.Transceiver

variable {l : Link} {h : Trace} {c : LinkConfig} {len timeout : Nat}

/-- The receive side is idle unless it is armed for a length. -/
def Noted (l : Link) : Prop := (∀ n, l.expected ≠ some (n + 1)) → l.rx = .idle

theorem noted_of_idle (hr : l.rx = .idle) : Noted l := fun _ => hr

theorem noted_of_armed (hl : len ≠ 0) (he : l.expected = some len) : Noted l := by
  intro hn
  obtain ⟨n, rfl⟩ := Nat.exists_eq_succ_of_ne_zero hl
  exact (hn n he).elim

theorem Noted.idle (hn : Noted l) (he : l.expected = none ∨ l.expected = some 0) :
    l.rx = .idle := by
  refine hn ?_
  intro n
  rcases he with he | he <;> simp [he]

/-- What the receive side is doing, it notes itself. -/
theorem keeps_rx (s : RxState) :
    Keeps (fun a => ∀ t, a ≠ .setRx t) (fun _ => True) fun l _ => l.rx = s where
  act a ha x l _ hl := by
    cases a with
    | command c => rw [Action.effect, Link.deposit_rx, hl]
    | setRx t => exact (ha t rfl).elim
    | _ => exact hl
  mark _ _ _ hl := hl
  wake _ _ _ hl := hl
  delay _ _ _ hl := hl
  take _ _ _ _ _ _ hl := hl

/-- Both notes of the receive side together. -/
theorem keeps_notes (n : Option Nat) (s : RxState) :
    Keeps (fun a => (∀ m, a ≠ .setExpected m) ∧ ∀ t, a ≠ .setRx t) (fun _ => True)
      fun l _ => l.expected = n ∧ l.rx = s :=
  (keeps_expected n).both (keeps_rx s)

theorem not_setRx_of_tx (a : Action) (ha : a.side = .tx) : ∀ t, a ≠ .setRx t := by
  rintro t rfl
  exact Direction.noConfusion ha

/-- An abandoned receive leaves its side idle, and for no length. -/
theorem abandon_unarmed (he : l.expected = none) :
    Action.EnsuresAll (fun l _ => l.expected = none ∧ l.rx = .idle) (Action.abandon .rx) l h := by
  have idle : Action.EnsuresAll (fun l _ => l.rx = .idle) (Action.abandon .rx) l h := by
    intro x ms
    rfl
  refine Action.EnsuresAll.and ((keeps_expected none).all ?_ he) idle
  simp [Action.abandon, Action.setIdle]

theorem giveUp_unarmed {α : Type} (a : α) {R : Link → Trace → Prop} (he : l.expected = none) :
    (do Call.performAll (Action.abandon .rx); Call.reset .rx; pure a : Call α).Ensures
      (fun r l _ => r = a ∧ l.expected = none ∧ l.rx = .idle) R l h := by
  rw [Call.ensures_bind, Call.ensures_performAll]
  refine (abandon_unarmed he).mono ?_
  intro l h hl
  exact (keeps_notes none .idle).perform (by simp) hl fun _ _ _ hl => ⟨rfl, hl⟩

/-- The notes after an arming of an idle side that ended with `r`: its length, or none as before. -/
def ArmedOrIdle (len : Nat) (r : Except RxError Unit) (l : Link) : Prop :=
  match r with
  | .ok _ => l.expected = some len ∧ l.rx = .armed
  | .error _ => l.expected = none ∧ l.rx = .idle

theorem armDma_notes (c : LinkConfig) (len : Nat) (hn : l.expected = none ∧ l.rx = .idle) :
    (armDma c len).Ensures (fun r l _ => ArmedOrIdle len r l)
      (fun l _ => l.expected = none ∧ l.rx = .idle) l h := by
  refine (keeps_notes none .idle).perform (by simp) hn fun n l h hn => ?_
  split
  · exact hn
  obtain ⟨he, -⟩ := hn
  refine (keeps_expected none).perform (by simp) he fun _ l h he => ?_
  rw [Call.ensures_bind, Call.ensures_startRx]
  refine (keeps_expected none).reach_act
    (fun x => (keeps_expected none).act (.command (.startRx _)) (by simp) x l h he)
    fun _ l h he => ?_
  refine (keeps_notes none .armed).reach (fun _ => ⟨he, rfl⟩) fun _ l h hn => ?_
  have published : (publish c len (Action.abandon .rx)).Uses
      (fun a => (∀ m, a ≠ .setExpected m) ∧ ∀ t, a ≠ .setRx t)
      fun p undo => p.IsNap ∧ undo = Action.abandon .rx :=
    publish_uses (by simp) fun _ => ⟨trivial, rfl⟩
  rw [Call.ensures_bind]
  refine ((keeps_notes none .armed).uses published (fun _ ha => ha) (fun p _ _ => p.within_any) ?_
    hn).imp ?_
  · rintro p undo ⟨-, rfl⟩ l h ⟨he, -⟩
    exact abandon_unarmed he
  · rintro taken l h ⟨he, hr⟩
    cases taken with
    | false =>
      refine (giveUp_unarmed _ he).imp ?_
      rintro _ l h ⟨rfl, notes⟩
      exact notes
    | true => exact ⟨rfl, hr⟩

theorem armFifo_notes (c : LinkConfig) (len : Nat) (hn : l.expected = none ∧ l.rx = .idle) :
    (armFifo c len).Ensures (fun r l _ => ArmedOrIdle len r l)
      (fun l _ => l.expected = none ∧ l.rx = .idle) l h := by
  have published : (publish c len []).Uses
      (fun a => (∀ m, a ≠ .setExpected m) ∧ ∀ t, a ≠ .setRx t)
      fun p undo => p.IsNap ∧ undo = [] :=
    publish_uses (by simp) fun _ => ⟨trivial, rfl⟩
  rw [armFifo, Call.ensures_bind]
  refine ((keeps_notes none .idle).uses published (fun _ ha => ha) (fun p _ _ => p.within_any) ?_
    hn).imp ?_
  · rintro p undo ⟨-, rfl⟩ l h hn
    exact hn
  · intro taken l h hn
    cases taken with
    | false =>
      refine (keeps_notes none .idle).perform (by simp) hn fun _ l h hn => ?_
      exact hn
    | true => exact ⟨rfl, rfl⟩

/-- How an arming that ended with `r` leaves the notes of the link `l`: with a length that a frame
can have, or as they were. -/
def Arms (c : LinkConfig) (len : Nat) (l : Link) (r : Except RxError Unit) (l' : Link) : Prop :=
  match r with
  | .ok _ => len ≤ c.maxFrameBytes ∧ l'.expected = some len ∧
      l'.rx = if len = 0 then .idle else .armed
  | .error e => l'.expected = l.expected ∧ l'.rx = l.rx ∧
      (e ≠ .frameTooLong → e ≠ .busy → l.expected = none)

theorem Arms.of_idle {r : Except RxError Unit} {l' : Link} (hm : len ≤ c.maxFrameBytes)
    (hl : len ≠ 0) (hn : l.expected = none ∧ l.rx = .idle) (ha : ArmedOrIdle len r l') :
    Arms c len l r l' := by
  obtain ⟨he, hr⟩ := hn
  cases r with
  | ok =>
    obtain ⟨expected, armed⟩ := ha
    exact ⟨hm, expected, by rw [armed, if_neg hl]⟩
  | error e =>
    obtain ⟨expected, idle⟩ := ha
    exact ⟨expected.trans he.symm, idle.trans hr.symm, fun _ _ => he⟩

/-- Arming a receive notes its length if it succeeds, changes nothing if it fails, and leaves no
receive armed if it is cut. -/
theorem armReceive_arms (c : LinkConfig) (len : Nat) (hn : Noted l) :
    (armReceive c len).Ensures (fun r l' _ => Arms c len l r l')
      (fun l _ => l.expected = none ∧ l.rx = .idle) l h := by
  unfold armReceive
  split
  · exact ⟨rfl, rfl, by simp⟩
  rename_i hm
  rw [Call.ensures_bind, Call.ensures_expected, Action.Ensures]
  cases he : l.expected with
  | some n => exact ⟨rfl, rfl, by simp⟩
  | none =>
    have idle := hn.idle (.inl he)
    rw [if_neg (by simp), Call.ensures_bind, Call.ensures_status, Action.Ensures]
    split
    · exact ⟨rfl, rfl, by simp⟩
    split
    · rename_i hl
      exact ⟨by omega, congrArg some hl.symm, by rw [if_pos hl]; exact idle⟩
    · rename_i hl
      have arms : ∀ r l', ArmedOrIdle len r l' → Arms c len l r l' := by
        intro r l' ha
        exact .of_idle (by omega) hl ⟨he, idle⟩ ha
      cases hm : c.mode with
      | dma =>
        exact (armDma_notes c len ⟨he, idle⟩).imp fun r l' _ ha => arms r l' ha
      | fifo =>
        exact (armFifo_notes c len ⟨he, idle⟩).imp fun r l' _ ha => arms r l' ha

/-- How an arming that ended with `r` leaves the notes. -/
def ArmNoted (len : Nat) (r : Except RxError Unit) (l : Link) : Prop :=
  Noted l ∧ (r = .ok () → l.expected = some len) ∧ ((Reply.armed r).Failed → l.expected = none)

theorem Arms.noted {r : Except RxError Unit} {l' : Link} (ha : Arms c len l r l') (hn : Noted l) :
    ArmNoted len r l' := by
  cases r with
  | ok =>
    obtain ⟨-, he, hr⟩ := ha
    refine ⟨?_, fun _ => he, False.elim⟩
    by_cases hl : len = 0
    · exact noted_of_idle (by rw [hr, if_pos hl])
    · exact noted_of_armed hl he
  | error e =>
    obtain ⟨he, hr, unarmed⟩ := ha
    refine ⟨by rwa [Noted, he, hr], nofun, fun failed => he.trans (unarmed ?_ ?_)⟩
    · rintro rfl
      exact failed
    · rintro rfl
      exact failed

/-- Arming a receive notes its length if it succeeds, and leaves none if it fails or is cut. -/
theorem armReceive_notes (c : LinkConfig) (len : Nat) (hn : Noted l) :
    (armReceive c len).Ensures (fun r l _ => ArmNoted len r l)
      (fun l _ => l.expected = none ∧ l.rx = .idle) l h :=
  (armReceive_arms c len hn).mono (fun _ _ _ ha => ha.noted hn) fun _ _ hl => hl

theorem finishDma_notes (c : LinkConfig) (len timeout : Nat) (he : l.expected = none) :
    (finishDma c len timeout).Ensures (fun _ l _ => l.expected = none ∧ l.rx = .idle)
      (fun l _ => l.expected = none ∧ l.rx = .idle) l h := by
  refine (keeps_expected none).perform (by simp) he fun _ l h he => ?_
  rw [Call.ensures_bind, Call.ensures_completion]
  refine ((keeps_expected none).wait (p := .completion .rx timeout) trivial he).mono ?_ ?_
  · intro l h he
    exact abandon_unarmed he
  · intro r l h he
    cases r with
    | none => exact (giveUp_unarmed _ he).imp fun _ _ _ hr => hr.2
    | some r =>
      cases r with
      | done =>
        refine reach_internal (P := fun l _ => l.expected = none ∧ l.rx = .idle) (by simp)
          (fun _ => ⟨he, rfl⟩) fun _ l h hl => ?_
        exact (keeps_notes none .idle).perform (by simp) hl fun _ _ _ hl => hl
      | error => exact (giveUp_unarmed _ he).imp fun _ _ _ hr => hr.2

theorem finishFifo_notes (c : LinkConfig) (len timeout : Nat) (he : l.expected = none) :
    (finishFifo c len timeout).Ensures (fun _ l _ => l.expected = none ∧ l.rx = .idle)
      (fun l _ => l.expected = none ∧ l.rx = .idle) l h := by
  have scrapped : ∀ {l h}, Link.expected l = none →
      Action.EnsuresAll (fun l _ => l.expected = none ∧ l.rx = .idle) (Action.scrap .rx) l h := by
    intro l h he x ms
    exact ⟨(Link.markAll_expected l ms).trans he, rfl⟩
  refine (keeps_expected none).perform (by simp) he fun _ l h he => ?_
  have collected : (collect (c.packing.wordCount len) 0 (c.budget timeout)).Uses
      (fun a => ∀ m, a ≠ .setExpected m) fun p undo => p.IsNap ∧ undo = Action.scrap .rx :=
    collect_uses (by simp) (by simp) fun _ => ⟨trivial, rfl⟩
  rw [Call.ensures_bind]
  refine ((keeps_expected none).uses collected (fun _ ha => ha) (fun p _ _ => p.within_any) ?_
    he).imp ?_
  · rintro p undo ⟨-, rfl⟩ l h he
    exact scrapped he
  · intro all l h he
    cases all with
    | false =>
      rw [if_neg (by simp), Call.ensures_bind, Call.ensures_performAll]
      exact scrapped he
    | true =>
      refine reach_internal (P := fun l _ => l.expected = none ∧ l.rx = .idle) (by simp)
        (fun _ => ⟨he, rfl⟩) fun _ l h hl => ?_
      exact (keeps_notes none .idle).perform (by simp) hl fun _ _ _ hl => hl

/-- Waiting for a receive leaves none armed, however it ends. -/
theorem finishReceive_notes (c : LinkConfig) (timeout : Nat) (hn : Noted l) :
    (finishReceive c timeout).Ensures (fun _ l _ => l.expected = none ∧ l.rx = .idle)
      (fun l _ => l.expected = none ∧ l.rx = .idle) l h := by
  rw [finishReceive, Call.ensures_bind, Call.ensures_expected, Action.Ensures]
  cases he : l.expected with
  | none => exact ⟨he, hn.idle (.inl he)⟩
  | some len =>
    rw [Call.ensures_bind, Call.ensures_setExpected, Action.Ensures]
    split
    · rename_i hl
      rw [hl] at he
      exact ⟨rfl, hn.idle (.inr he)⟩
    · cases hm : c.mode with
      | dma => exact finishDma_notes c len timeout rfl
      | fifo => exact finishFifo_notes c len timeout rfl

theorem receive_notes (c : LinkConfig) (len timeout : Nat) (hn : Noted l) :
    (receive c len timeout).Ensures
      (fun r l _ => (Reply.received r).Failed → l.expected = none)
      (fun l _ => l.expected = none ∧ l.rx = .idle) l h := by
  rw [receive, Call.ensures_bind]
  refine (armReceive_notes c len hn).mono ?_ fun _ _ hl => hl
  rintro r l h ⟨hn, -, failed⟩
  cases r with
  | error e => cases e <;> exact failed
  | ok => exact (finishReceive_notes c timeout hn).mono (fun _ _ _ hl _ => hl.1) fun _ _ hl => hl

theorem cancelReceive_notes (c : LinkConfig) (hn : Noted l) :
    (cancelReceive c).Ensures (fun _ l _ => Noted l) (fun _ _ => False) l h := by
  have reset : ∀ {l h}, (do Call.reset .rx; Call.setRx .idle : Call Unit).Ensures
      (fun _ l _ => Noted l) (fun _ _ => False) l h := by
    intro l h
    refine keeps_true.perform trivial trivial fun _ l h _ => ?_
    exact noted_of_idle rfl
  rw [cancelReceive, Call.ensures_bind, Call.ensures_expected, Action.Ensures]
  cases he : l.expected with
  | none => exact hn
  | some len =>
    refine keeps_true.perform trivial trivial fun _ l h _ => ?_
    cases hm : c.mode with
    | dma =>
      rw [Call.ensures_bind, Call.ensures_performAll]
      refine (keeps_true.all (fun _ _ => trivial) trivial).mono ?_
      intro l h _
      exact reset
    | fifo => exact reset

/-- Between operations the receive side is idle unless it is armed for a length. -/
theorem kept_noted : Kept fun _ l _ => Noted l where
  send c bytes timeout l h hn := by
    have notes := (keeps_notes l.expected l.rx).onSide (h := h) (send_onSide c bytes timeout)
      (fun a ha => ⟨not_setExpected_of_tx a ha, not_setRx_of_tx a ha⟩) trivial ⟨rfl, rfl⟩
    have noted : ∀ l' : Link, l'.expected = l.expected ∧ l'.rx = l.rx → Noted l' := by
      rintro l' ⟨he, hr⟩
      rwa [Noted, he, hr]
    exact notes.mono (fun _ l' _ hl => noted l' hl) fun l' _ hl => noted l' hl
  arm c len _ _ hn :=
    (armReceive_notes c len hn).mono (fun _ _ _ hr => hr.1) fun _ _ hl => noted_of_idle hl.2
  finish c timeout _ _ hn :=
    (finishReceive_notes c timeout hn).mono (fun _ _ _ hl => noted_of_idle hl.2)
      fun _ _ hl => noted_of_idle hl.2
  cancel c _ _ hn := cancelReceive_notes c hn
  marks _ ms l h hn := by
    have notes := (keeps_notes l.expected l.rx).marks (h := h) ms ⟨rfl, rfl⟩
    rwa [Noted, notes.1, notes.2]
  take _ _ _ _ hn := hn
  recreate _ _ _ _ _ := by
    intro _ _ _ _
    exact noted_of_idle rfl

end Joybus.Transceiver
