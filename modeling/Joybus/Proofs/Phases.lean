import Joybus.Proofs.Histories
import Joybus.Proofs.Sessions

/-! The phases of a direction's engine transfers, as any run of operations goes through them. -/
namespace Joybus.Transceiver

variable {α : Type} {d : Direction} {l : Link} {h : Trace} {c : LinkConfig}

/-- The engine of direction `d` is started. -/
def Command.Starts (d : Direction) : Command → Prop
  | .startTx _ => d = .tx
  | .startRx _ => d = .rx
  | _ => False

@[inherit_doc Command.Starts]
def Event.Starts (d : Direction) : Event → Prop
  | .acted (.command c) _ => c.Starts d
  | _ => False

instance (c : Command) : Decidable (c.Starts d) :=
  match c with
  | .startTx _ => inferInstanceAs (Decidable (d = .tx))
  | .startRx _ => inferInstanceAs (Decidable (d = .rx))
  | .flag _ _ | .clear _ _ | .notify _ | .reset _ | .push _ _ | .pull _ | .abort _ => .isFalse id

instance (e : Event) : Decidable (e.Starts d) :=
  match e with
  | .acted (.command c) _ => inferInstanceAs (Decidable (c.Starts d))
  | .acted (.capacity _) _ | .acted (.status _) _ | .acted (.arm _) _ | .acted (.disarm _) _
  | .acted .txState _ | .acted (.setTx _) _ | .acted (.setRx _) _ | .acted .expected _
  | .acted (.setExpected _) _ | .acted (.stage _) _ | .acted (.staged _) _ | .acted (.store _ _) _
  | .acted (.fetch _) _ | .marked _ _ | .consumed _ | .delayed _ => .isFalse id

/-- An action on the engine or the cell of direction `d`. -/
def Action.Handles (d : Direction) : Action → Prop
  | .command (.abort e) | .arm e | .disarm e => e = d
  | .command c => c.Starts d
  | _ => False

/-- An action that writes or reads the buffer of direction `d`. -/
def Action.Touches (d : Direction) : Action → Prop
  | .stage _ | .staged _ => d = .tx
  | .store _ _ | .fetch _ => d = .rx
  | _ => False

/-- An action that leaves the engine of direction `d` to its work. -/
def Action.Avoids (d : Direction) (a : Action) : Prop := ¬ a.Handles d ∧ ¬ a.Touches d

/-- The transceiver notes in which state a direction is. -/
def Action.Notes : Action → Prop
  | .setTx _ | .setRx _ => True
  | _ => False

/-- What every action keeps that does not handle the engine is kept while it works. -/
theorem Keeps.avoiding {P : Link → Trace → Prop} (hk : Keeps (¬ ·.Handles d) (· ≠ d) P) :
    Keeps (·.Avoids d) (· ≠ d) P := hk.weaken (fun _ ha => ha.1) fun _ hd => hd

theorem keeps_any (d : Direction) : Keeps (¬ ·.Handles d) (· ≠ d) fun _ _ => True :=
  keeps_true.weaken (fun _ _ => trivial) fun _ _ => trivial

theorem keeps_any_avoiding (d : Direction) : Keeps (·.Avoids d) (· ≠ d) fun _ _ => True :=
  (keeps_any d).avoiding

/-- The phases of direction `d`: no transfer under way, the cell found unused, the cell armed, and
a transfer possibly under way. -/
structure Phases (d : Direction) where
  free : Link → Trace → Prop
  checked : Link → Trace → Prop
  armed : Link → Trace → Prop
  busy : Link → Trace → Prop
  keeps_free : Keeps (¬ ·.Handles d) (· ≠ d) free
  keeps_checked : Keeps (¬ ·.Handles d) (· ≠ d) checked
  keeps_busy : Keeps (·.Avoids d) (· ≠ d) busy
  free_of_checked : ∀ l h, checked l h → free l h
  busy_of_free : ∀ l h, free l h → busy l h
  check : ∀ l h, l.status d = .notStarted → free l h →
    checked l (h ++ [.acted (.status d) .notStarted])
  arm : ∀ l h, checked l h → armed ((Action.arm d).effect () l) (h ++ [.acted (.arm d) ()])
  note : ∀ a x l h, a.Notes → armed l h → armed (a.effect x l) (h ++ [.acted a x])
  start : ∀ c x l h, c.Starts d → armed l h →
    busy (l.deposit c x) (h ++ [.acted (.command c) x])
  stop : ∀ ms l h, busy l h → free ((Action.disarm d).effect () (l.markAll ms))
    (h ++ .acted (.command (.abort d)) () :: l.markTrace ms ++ [.acted (.disarm d) ()])
  consume : ∀ r l h, (l.status d).report? = some r → busy l h →
    free (l.take d) (h ++ [.consumed ⟨d, r⟩])

/-- A receive is armed that has an engine transfer. -/
def Receiving (c : LinkConfig) (l : Link) : Prop := c.mode = .dma ∧ ∃ n, l.expected = some (n + 1)

theorem not_handles_of_side (a : Action) (ha : a.side = d.other) : ¬ a.Handles d := by
  cases a with
  | command c =>
    cases c <;> cases d <;>
      simp_all [Action.side, Command.side, Direction.other, Action.Handles, Command.Starts]
  | arm e | disarm e =>
    change e ≠ d
    change e = d.other at ha
    rw [ha]
    exact Direction.other_ne d
  | _ => exact id

theorem not_handles_of_engineless (a : Action) (ha : a.Engineless) : ¬ a.Handles d := by
  cases a with
  | command c => cases c <;> first | exact id | exact ha.elim
  | arm e | disarm e => exact ha.elim
  | _ => exact id

theorem avoids_of_side (a : Action) (ha : a.side = d.other) : a.Avoids d := by
  refine ⟨not_handles_of_side a ha, ?_⟩
  cases a with
  | stage ws | staged n | store i word | fetch n =>
    rintro rfl
    exact Direction.noConfusion ha
  | _ => exact id

theorem Keeps.other {P : Link → Trace → Prop} (hk : Keeps (·.Avoids d) (· ≠ d) P)
    {call : Call α} (hc : call.OnSide d.other) (hp : P l h) : call.Ensures (fun _ => P) P l h :=
  hk.onSide hc avoids_of_side (Direction.other_ne d) hp

theorem keeps_expected (n : Option Nat) :
    Keeps (fun a => ∀ m, a ≠ .setExpected m) (fun _ => True) fun l _ => l.expected = n where
  act a ha x l _ hl := by
    cases a with
    | command c => rw [Action.effect, Link.deposit_expected, hl]
    | setExpected m => exact (ha m rfl).elim
    | _ => simpa only [Action.effect] using hl
  mark _ _ _ hl := hl
  wake _ _ _ hl := hl
  delay _ _ _ hl := hl
  take _ _ _ _ _ _ hl := hl

/-- The length a receive is armed for is a matter of the receive side. -/
theorem not_setExpected_of_tx (a : Action) (ha : a.side = .tx) : ∀ m, a ≠ .setExpected m := by
  rintro m rfl
  exact Direction.noConfusion ha

namespace Phases
variable (Φ : Phases d)

theorem free_of_engineless {call : Call α} (hc : call.Engineless) (hf : Φ.free l h) :
    call.Ensures (fun _ => Φ.free) Φ.free l h :=
  Φ.keeps_free.engineless hc not_handles_of_engineless hf

/-- Stopping the engine and disarming the cell ends a transfer. -/
theorem stopped {as : List Action} (ha : ∀ a ∈ as, ¬ a.Handles d) (hb : Φ.busy l h) :
    Action.EnsuresAll Φ.free (.command (.abort d) :: .disarm d :: as) l h := by
  intro _ ms
  change Action.EnsuresAll Φ.free as _ _
  exact Φ.keeps_free.all ha (Φ.stop ms l h hb)

theorem abandon (hb : Φ.busy l h) : Action.EnsuresAll Φ.free (Action.abandon d) l h := by
  refine Φ.stopped ?_ hb
  cases d <;> simp [Action.setIdle, Action.Handles]

/-- A call that goes on only if it finds the cell unused. -/
theorem entry {Q : α → Link → Trace → Prop} {R : Link → Trace → Prop} {refused next : Call α}
    (hf : Φ.free l h) (hr : ∀ h, Φ.free l h → refused.Ensures Q R l h)
    (hn : ∀ h, Φ.checked l h → next.Ensures Q R l h) :
    (do if (← Call.status d) ≠ .notStarted then refused else next : Call α).Ensures Q R l h := by
  rw [Call.ensures_bind, Call.ensures_status]
  by_cases hs : l.status d = .notStarted
  · simp only [Action.Ensures, hs, ne_eq, not_true_eq_false, if_false]
    exact hn _ (Φ.check l h hs hf)
  · simp only [Action.Ensures, ne_eq, hs, not_false_eq_true, if_true]
    exact hr _ (Φ.keeps_free.act (.status d) id _ l h hf)

theorem giveUp (a : α) {R : Link → Trace → Prop} (hb : Φ.busy l h) :
    (do Call.performAll (Action.abandon d); Call.reset d; pure a : Call α).Ensures
      (fun _ => Φ.free) R l h := by
  rw [Call.ensures_bind, Call.ensures_performAll]
  refine (Φ.abandon hb).mono ?_
  intro l h hf
  exact Φ.keeps_free.perform id hf fun _ _ _ hf => hf

/-- A completion wait ends with the report consumed, or with a transfer to be given up. -/
theorem completion (us : Nat) (hb : Φ.busy l h) :
    (Call.completion d us).Ensures
      (fun r l h => Φ.busy l h ∧ (r.isSome = true → Φ.free l h)) Φ.free l h := by
  have consumed : ∀ r l h, (l.status d).report? = some r → Φ.busy l h →
      Φ.busy (l.take d) (h ++ [.consumed ⟨d, r⟩]) ∧ (true = true → Φ.free (l.take d)
        (h ++ [.consumed ⟨d, r⟩])) := by
    intro r l h hr hb
    have hf := Φ.consume r l h hr hb
    exact ⟨Φ.busy_of_free _ _ hf, fun _ => hf⟩
  have hl := Φ.keeps_busy.wake d l h hb
  rw [Call.ensures_completion]
  refine ⟨?_, ?_⟩
  · intro r hr
    exact consumed r _ h (by rwa [Link.status_leaveWaker]) hl
  · intro _ ms
    have hm := Φ.keeps_busy.marks ms (Φ.keeps_busy.delay us _ h hl)
    rw [Link.markTrace_congr (Link.status_leaveWaker l d)] at hm
    refine ⟨Φ.abandon hm, ?_⟩
    cases hr : (((l.leaveWaker d).markAll ms).status d).report? with
    | none => simpa [consumption, Link.take_eq_self hr] using hm
    | some r => exact consumed r _ _ hr hm

end Phases

section Send
variable (Φ : Phases .tx)

theorem sendDma_free (words : List Word) (timeout : Nat) (hc : Φ.checked l h) :
    (sendDma words timeout).Ensures (fun _ => Φ.free) Φ.free l h := by
  refine Φ.keeps_checked.stage id id hc fun words _ l h hc => ?_
  refine reach_internal (by simp) (fun _ => Φ.arm l h hc) fun _ l h ha => ?_
  refine reach_internal (by simp) (fun _ => Φ.note _ _ l h trivial ha) fun _ l h ha => ?_
  refine Φ.keeps_busy.reach (fun _ => Φ.start (.startTx words) () l h rfl ha) fun _ l h hb => ?_
  refine Φ.keeps_busy.perform ⟨id, id⟩ hb fun _ l h hb => ?_
  refine Φ.keeps_busy.perform ⟨id, id⟩ hb fun _ l h hb => ?_
  rw [Call.ensures_bind]
  refine (Φ.completion timeout hb).mono ?_ fun _ _ hf => hf
  intro r l h hp
  obtain ⟨hb, hf⟩ := hp
  cases r with
  | none => exact Φ.giveUp _ hb
  | some r =>
    cases r with
    | done => exact Φ.keeps_free.perform id (hf rfl) fun _ _ _ hf => hf
    | error => exact Φ.giveUp _ hb

theorem sendWords_free (c : LinkConfig) (words : List Word) (timeout : Nat) (hf : Φ.free l h) :
    (sendWords c words timeout).Ensures (fun _ => Φ.free) Φ.free l h := by
  refine Φ.keeps_free.perform id hf fun s l h hf => ?_
  split
  · exact hf
  refine Φ.entry hf (fun _ hf => hf) fun h hc => ?_
  have turn : (takeBusTurn c).Ensures (fun _ => Φ.checked) Φ.checked l h :=
    Φ.keeps_checked.engineless (takeBusTurn_engineless c) not_handles_of_engineless hc
  rw [Call.ensures_bind]
  refine turn.mono ?_ Φ.free_of_checked
  intro taken l h hc
  cases taken with
  | false => exact Φ.free_of_checked l h hc
  | true =>
    cases hm : c.mode with
    | dma => exact sendDma_free Φ words timeout hc
    | fifo =>
      exact Φ.free_of_engineless (sendFifo_engineless c words timeout) (Φ.free_of_checked l h hc)

theorem send_free (c : LinkConfig) (bytes : List Byte) (timeout : Nat) (hf : Φ.free l h) :
    (send c bytes timeout).Ensures (fun _ => Φ.free) Φ.free l h := by
  unfold send
  split
  · exact hf
  · exact hf
  · cases hm : c.mode with
    | fifo => exact sendWords_free Φ c _ timeout hf
    | dma =>
      refine Φ.keeps_free.perform id hf fun n l h hf => ?_
      split
      · exact hf
      · exact sendWords_free Φ c _ timeout hf

end Send

section Receive
variable (Φ : Phases .rx)

/-- Between calls on the receive side: no transfer under way, unless a receive is armed. -/
def Phases.Rests (c : LinkConfig) (l : Link) (h : Trace) : Prop :=
  Φ.free l h ∨ Receiving c l ∧ Φ.busy l h

theorem armDma_rests (len : Nat) (hm : c.mode = .dma) (hl : len ≠ 0) (hc : Φ.checked l h) :
    (armDma c len).Ensures (fun _ => Φ.Rests c) Φ.free l h := by
  refine Φ.keeps_checked.perform id hc fun n l h hc => ?_
  split
  · exact .inl (Φ.free_of_checked l h hc)
  refine reach_internal (by simp) (fun _ => Φ.arm l h hc) fun _ l h ha => ?_
  rw [Call.ensures_bind, Call.ensures_startRx]
  refine Φ.keeps_busy.reach_act (fun x => Φ.start (.startRx _) x l h rfl ha) fun _ l h hb => ?_
  refine Φ.keeps_busy.perform ⟨id, id⟩ hb fun _ l h hb => ?_
  have published : (publish c len (Action.abandon .rx)).Ensures (fun _ => Φ.busy) Φ.free l h := by
    have pushes : (publish c len (Action.abandon .rx)).Uses (·.Avoids .rx)
        fun p undo => p.IsNap ∧ undo = Action.abandon .rx :=
      publish_uses ⟨id, id⟩ fun _ => ⟨trivial, rfl⟩
    refine Φ.keeps_busy.uses pushes (fun _ ha => ha) ?_ ?_ hb
    · intro p undo hu
      obtain ⟨hw, _⟩ := hu
      exact hw.within
    · rintro p undo ⟨-, rfl⟩ l h hb
      exact Φ.abandon hb
  rw [Call.ensures_bind]
  refine published.mono ?_ fun _ _ hf => hf
  intro published l h hb
  cases published with
  | false => exact (Φ.giveUp _ hb).mono (fun _ _ _ hf => .inl hf) fun _ _ hf => hf
  | true =>
    obtain ⟨n, rfl⟩ := Nat.exists_eq_succ_of_ne_zero hl
    exact .inr ⟨⟨hm, n, rfl⟩, Φ.keeps_busy.act (.setExpected (some (n + 1))) ⟨id, id⟩ () l h hb⟩

namespace Phases.Rests
variable {Φ : Phases .rx}

theorem busy (hr : Φ.Rests c l h) : Φ.busy l h := by
  rcases hr with hf | ⟨_, hb⟩
  · exact Φ.busy_of_free l h hf
  · exact hb

theorem free (hr : Φ.Rests c l h) (hn : ¬ Receiving c l) : Φ.free l h := by
  rcases hr with hf | ⟨hl, _⟩
  · exact hf
  · exact (hn hl).elim

/-- A step that keeps both phases and the length a receive is armed for. -/
theorem step {l' : Link} {h' : Trace} (hr : Φ.Rests c l h) (hf : Φ.free l h → Φ.free l' h')
    (hb : Φ.busy l h → Φ.busy l' h') (hl : l'.expected = l.expected) : Φ.Rests c l' h' := by
  rcases hr with hr | ⟨⟨hm, n, hn⟩, hr⟩
  · exact .inl (hf hr)
  · exact .inr ⟨⟨hm, n, hl.trans hn⟩, hb hr⟩

/-- Reading the length a receive is armed for. -/
theorem read (hr : Φ.Rests c l h) : Φ.Rests c l (h ++ [.acted .expected l.expected]) :=
  hr.step (Φ.keeps_free.act .expected id _ l h) (Φ.keeps_busy.act .expected ⟨id, id⟩ _ l h) rfl

/-- Calls on the transmit side leave the receive side as it is. -/
theorem of_tx {call : Call α} (hc : call.OnSide .tx) (hr : Φ.Rests c l h) :
    call.Ensures (fun _ => Φ.Rests c) (Φ.Rests c) l h := by
  rcases hr with hf | ⟨⟨hm, n, hn⟩, hb⟩
  · exact (Φ.keeps_free.avoiding.other hc hf).mono (fun _ _ _ hf => .inl hf) fun _ _ hf => .inl hf
  · have expected := (keeps_expected _).onSide (h := h) hc not_setExpected_of_tx trivial hn
    refine ((Φ.keeps_busy.other hc hb).and expected).mono ?_ ?_
    · rintro _ l h ⟨hb, hn⟩
      exact .inr ⟨⟨hm, n, hn⟩, hb⟩
    · rintro l h ⟨hb, hn⟩
      exact .inr ⟨⟨hm, n, hn⟩, hb⟩

end Phases.Rests

theorem not_receiving_of_none (he : l.expected = none) : ¬ Receiving c l := by
  rintro ⟨_, n, hn⟩
  simp [he] at hn

theorem not_receiving_of_zero (he : l.expected = some 0) : ¬ Receiving c l := by
  rintro ⟨_, n, hn⟩
  simp [he] at hn

theorem not_receiving_of_fifo (hm : c.mode = .fifo) : ¬ Receiving c l := by
  rintro ⟨hd, _⟩
  simp [hm] at hd

theorem armReceive_rests (c : LinkConfig) (len : Nat) (hr : Φ.Rests c l h) :
    (armReceive c len).Ensures (fun _ => Φ.Rests c) (Φ.Rests c) l h := by
  unfold armReceive
  split
  · exact hr
  rw [Call.ensures_bind, Call.ensures_expected, Action.Ensures]
  have hx := hr.read
  cases he : l.expected with
  | some n =>
    rw [he] at hx
    exact hx
  | none =>
    rw [he] at hx
    have hf := hx.free (not_receiving_of_none he)
    refine Φ.entry hf (fun _ hf => .inl hf) fun h hc => ?_
    split
    · exact .inl (Φ.keeps_free.act (.setExpected _) id () l h (Φ.free_of_checked l h hc))
    · rename_i hl
      cases hm : c.mode with
      | dma => exact (armDma_rests Φ len hm hl hc).mono (fun _ _ _ hr => hr) fun _ _ hf => .inl hf
      | fifo =>
        exact (Φ.free_of_engineless (armFifo_engineless c len) (Φ.free_of_checked l h hc)).mono
          (fun _ _ _ hf => .inl hf) fun _ _ hf => .inl hf

theorem finishDma_free (len timeout : Nat) (hb : Φ.busy l h) :
    (finishDma c len timeout).Ensures (fun _ => Φ.free) Φ.free l h := by
  refine Φ.keeps_busy.perform ⟨id, id⟩ hb fun _ l h hb => ?_
  rw [Call.ensures_bind]
  refine (Φ.completion timeout hb).mono ?_ fun _ _ hf => hf
  intro r l h hp
  obtain ⟨hb, hf⟩ := hp
  cases r with
  | none => exact Φ.giveUp _ hb
  | some r =>
    cases r with
    | done =>
      refine Φ.keeps_free.perform id (hf rfl) fun _ l h hf => ?_
      exact Φ.keeps_free.perform id hf fun _ _ _ hf => hf
    | error => exact Φ.giveUp _ hb

theorem finishReceive_rests (c : LinkConfig) (timeout : Nat) (hr : Φ.Rests c l h) :
    (finishReceive c timeout).Ensures (fun _ => Φ.Rests c) (Φ.Rests c) l h := by
  have freed : ∀ {call : Call (Except RxError Frame)} {l h},
      call.Ensures (fun _ => Φ.free) Φ.free l h →
      call.Ensures (fun _ => Φ.Rests c) (Φ.Rests c) l h := by
    intro call l h hc
    exact hc.mono (fun _ _ _ hf => .inl hf) fun _ _ hf => .inl hf
  rw [finishReceive, Call.ensures_bind, Call.ensures_expected, Action.Ensures]
  have hx := hr.read
  cases he : l.expected with
  | none =>
    rw [he] at hx
    exact hx
  | some len =>
    rw [he] at hx
    refine freed ?_
    rw [Call.ensures_bind, Call.ensures_setExpected, Action.Ensures]
    cases len with
    | zero =>
      exact Φ.keeps_free.act (.setExpected none) id () l _ (hx.free (not_receiving_of_zero he))
    | succ n =>
      cases hm : c.mode with
      | dma =>
        exact finishDma_free Φ (n + 1) timeout
          (Φ.keeps_busy.act (.setExpected none) ⟨id, id⟩ () l _ hx.busy)
      | fifo =>
        exact Φ.free_of_engineless (finishFifo_engineless c (n + 1) timeout)
          (Φ.keeps_free.act (.setExpected none) id () l _ (hx.free (not_receiving_of_fifo hm)))

theorem cancelReceive_rests (c : LinkConfig) (hr : Φ.Rests c l h) :
    (cancelReceive c).Ensures (fun _ => Φ.Rests c) (fun _ _ => False) l h := by
  rw [cancelReceive, Call.ensures_bind, Call.ensures_expected, Action.Ensures]
  have hx := hr.read
  cases he : l.expected with
  | none =>
    rw [he] at hx
    exact hx
  | some len =>
    rw [he] at hx
    have quiet : ∀ {l h}, Φ.free l h → (do Call.reset .rx; Call.setRx .idle : Call Unit).Ensures
        (fun _ => Φ.Rests c) (fun _ _ => False) l h := by
      intro l h hf
      refine Φ.keeps_free.perform id hf fun _ l h hf => ?_
      exact .inl (Φ.keeps_free.act (.setRx .idle) id () l h hf)
    cases hm : c.mode with
    | dma =>
      refine Φ.keeps_busy.perform ⟨id, id⟩ hx.busy fun _ l h hb => ?_
      rw [Call.ensures_bind, Call.ensures_performAll]
      refine (Φ.stopped (by simp) hb).mono ?_
      intro l h hf
      exact quiet hf
    | fifo =>
      refine Φ.keeps_free.perform id (hx.free (not_receiving_of_fifo hm)) fun _ l h hf => ?_
      exact quiet hf

end Receive

/-- Nothing is under way on the transmit side, nor on the receive side but for an armed receive. -/
def Phases.Resting (Φ : ∀ d, Phases d) (c : LinkConfig) (l : Link) (h : Trace) : Prop :=
  (Φ .tx).free l h ∧ (Φ .rx).Rests c l h

namespace Phases
variable (Φ : ∀ d, Phases d)

/-- A report that somebody else consumes ends its transfer. -/
theorem taken_resting (d : Direction) (hr : Resting Φ c l h) :
    Resting Φ c (l.take d) (h ++ consumption d (l.status d).report?) := by
  obtain ⟨ht, hr⟩ := hr
  cases hs : (l.status d).report? with
  | none => simpa [consumption, Link.take_eq_self hs] using ⟨ht, hr⟩
  | some r =>
    cases d with
    | tx =>
      refine ⟨(Φ .tx).consume r l h hs ((Φ .tx).busy_of_free l h ht), ?_⟩
      exact hr.step ((Φ .rx).keeps_free.take .tx (by decide) r l h hs)
        ((Φ .rx).keeps_busy.take .tx (by decide) r l h hs) rfl
    | rx =>
      exact ⟨(Φ .tx).keeps_free.take .rx (by decide) r l h hs ht,
        .inl ((Φ .rx).consume r l h hs hr.busy)⟩

theorem farewell_resting {c' : LinkConfig} (renew : ∀ d l h, (Φ d).free l h → (Φ d).free l.renew h)
    (hr : Resting Φ c l h) :
    Action.EnsuresAll (fun l h => Resting Φ c' l.renew h) farewell l h := by
  obtain ⟨ht, hr⟩ := hr
  have tx : Action.EnsuresAll (Φ .tx).free farewell l h := by
    refine (Φ .tx).stopped ?_ ((Φ .tx).busy_of_free l h ht)
    simp [Action.Handles]
  have rx : Action.EnsuresAll (Φ .rx).free farewell l h := by
    have other : Action.Avoids .rx (.command (.abort .tx)) := ⟨by simp [Action.Handles], id⟩
    refine (Φ .rx).keeps_busy.reach_act
      (fun x => (Φ .rx).keeps_busy.act _ other x l h hr.busy) fun _ l h hb => ?_
    refine (Φ .rx).keeps_busy.reach_act
      (fun x => (Φ .rx).keeps_busy.act (.disarm .tx) ⟨by simp [Action.Handles], id⟩ x l h hb)
      fun _ l h hb => ?_
    exact (Φ .rx).stopped (by simp) hb
  refine (tx.and rx).mono ?_
  rintro l h ⟨ht, hf⟩
  exact ⟨renew .tx l h ht, .inl (renew .rx l h hf)⟩

/-- Both directions are at rest between any two operations. -/
theorem kept_resting (renew : ∀ d l h, (Φ d).free l h → (Φ d).free l.renew h) :
    Kept (Resting Φ) where
  send c bytes timeout l h := by
    rintro ⟨ht, hr⟩
    exact (send_free (Φ .tx) c bytes timeout ht).and (hr.of_tx (send_onSide c bytes timeout))
  arm c len l h := by
    rintro ⟨ht, hr⟩
    exact ((Φ .tx).keeps_free.avoiding.other (armReceive_onSide c len) ht).and
      (armReceive_rests (Φ .rx) c len hr)
  finish c timeout l h := by
    rintro ⟨ht, hr⟩
    exact ((Φ .tx).keeps_free.avoiding.other (finishReceive_onSide c timeout) ht).and
      (finishReceive_rests (Φ .rx) c timeout hr)
  cancel c l h := by
    rintro ⟨ht, hr⟩
    have keeps : (cancelReceive c).Ensures (fun _ => (Φ .tx).free) (fun _ _ => False) l h :=
      (Φ .tx).keeps_free.uses (cancelReceive_onSide c) (not_handles_of_side (d := .tx))
        (fun _ _ hw => hw.elim) (fun _ _ hw => hw.elim) ht
    exact (keeps.and (cancelReceive_rests (Φ .rx) c hr)).mono (fun _ _ _ hn => hn)
      fun _ _ hn => hn.1
  marks c ms l h := by
    rintro ⟨ht, hr⟩
    exact ⟨(Φ .tx).keeps_free.marks ms ht, hr.step ((Φ .rx).keeps_free.marks ms)
      ((Φ .rx).keeps_busy.marks ms) (by simp)⟩
  take c d l h := taken_resting Φ d
  recreate c c' l h := farewell_resting Φ renew

end Phases

end Joybus.Transceiver
