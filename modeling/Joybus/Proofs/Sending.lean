import Joybus.Proofs.Responsive

/-! A send that the hardware answers in time succeeds, and hands over exactly its words. -/
namespace Joybus.Transceiver

open Trace

variable {l : Link} {h : Trace} {c : LinkConfig}

/-- The transmit side was not used so far, but for the bus turn. -/
def Unsent (l : Link) (h : Trace) : Prop :=
  Dormant .tx l h ∧ h.handed .tx = [] ∧ h.misses (.push .tx) = 0

/-- An action that gives nothing to the transmit hardware to send. -/
def Action.SendsNothing (a : Action) : Prop :=
  ¬ a.Handles .tx ∧ ∀ w, a ≠ .command (.push .tx w)

theorem Action.SendsNothing.handed {a : Action} (ha : a.SendsNothing) (x : a.Answer) :
    (Event.acted a x).handed .tx = [] ∧ (Event.acted a x).miss? ≠ some (.push .tx) := by
  obtain ⟨hd, hp⟩ := ha
  cases a with
  | command c =>
    cases c with
    | push e w =>
      cases e with
      | tx => exact (hp w rfl).elim
      | rx => cases x <;> simp [Event.handed, Event.miss?]
    | startTx words => exact (hd rfl).elim
    | flag e i => cases e <;> cases x <;> simp [Event.handed, Event.miss?]
    | pull e => cases e <;> cases x <;> simp [Event.handed, Event.miss?]
    | _ => simp [Event.handed, Event.miss?]
  | _ => simp [Event.handed, Event.miss?]

theorem keeps_offered (words : List Word) : Keeps Action.SendsNothing (fun _ => True)
    fun _ h => h.handed .tx = words :=
  (keeps_handed .tx words).weaken (fun _ ha x => (ha.handed x).1) fun _ hd => hd

theorem keeps_refused (n : Nat) : Keeps Action.SendsNothing (fun _ => True)
    fun _ h => h.misses (.push .tx) = n :=
  (keeps_misses _ n).weaken (fun _ ha x => (ha.handed x).2) fun _ hd => hd

theorem keeps_unsent : Keeps Action.SendsNothing (· ≠ .tx) Unsent := by
  have answers := (keeps_offered []).and (keeps_refused 0)
  exact (keeps_dormant.weaken (fun _ ha => ha.1) fun _ hd => hd).and
    (answers.weaken (fun _ ha => ha) fun _ _ => trivial)

/-- An engine works on `words`. -/
def Sending (words : List Word) (l : Link) (h : Trace) : Prop :=
  Underway .tx l h ∧ h.handed .tx = words

theorem keeps_sending (words : List Word) :
    Keeps Action.SendsNothing (· ≠ .tx) (Sending words) :=
  (keeps_underway.weaken (fun _ ha => ha.1) fun _ hd => hd).and
    ((keeps_offered words).weaken (fun _ ha => ha) fun _ _ => trivial)

theorem takeBusTurn_misses (c : LinkConfig) :
    (takeBusTurn c).Ensures
      (fun taken _ h' => taken = false →
        h'.misses .turn = h.misses .turn + (c.budget c.busTurnTimeout).naps + 1)
      (fun _ _ => True) l h := by
  rw [takeBusTurn, Call.ensures_bind]
  refine (awaitBusTurn_misses _).imp ?_
  intro seen l h' hm
  cases seen with
  | false =>
    intro x ms _
    simpa [Event.miss?] using hm rfl
  | true =>
    intro x ms hf
    exact Bool.noConfusion hf

theorem takeBusTurn_unsent (c : LinkConfig) (hu : Unsent l h) :
    (takeBusTurn c).Ensures (fun _ => Unsent) (fun _ _ => True) l h := by
  have turn : (takeBusTurn c).Uses Action.SendsNothing fun p _ => p.IsNap :=
    takeBusTurn_uses (by simp [Action.SendsNothing, Action.Handles, Command.Starts])
      (by simp [Action.SendsNothing, Action.Handles, Command.Starts])
      (by simp [Action.SendsNothing, Action.Handles, Command.Starts]) fun _ => trivial
  exact keeps_unsent.naps turn hu

theorem sendDma_answered (words : List Word) (timeout : Nat)
    (fits : words.length ≤ WordStream.capacity) (hu : Unsent l h) :
    (sendDma words timeout).Ensures
      (fun r _ h' => h'.Solicited → h'.Completes .tx timeout → r = .ok () ∧ h'.handed .tx = words)
      (fun _ _ => True) l h := by
  have primed := (keeps_awaited.weaken (fun _ (ha : Action.SendsNothing _) => ha.1)
    fun _ hd => hd).and ((keeps_offered []).weaken (fun _ ha => ha) fun _ _ => trivial)
  refine keeps_unsent.stage ⟨id, by simp⟩ ⟨id, by simp⟩ hu fun staged same l h hu => ?_
  obtain ⟨hd, hh, -⟩ := hu
  cases same fits
  refine primed.reach (fun x => ⟨hd.arm, by simp [hh, Event.handed]⟩) fun _ l h hp => ?_
  refine primed.perform ⟨id, by simp⟩ hp fun _ l h hp => ?_
  obtain ⟨ha, hh⟩ := hp
  have started : ∀ x, Sending words ((Action.command (.startTx words)).effect x l)
      (h ++ [.acted (.command (.startTx words)) x]) := by
    intro x
    exact ⟨⟨ha.act rfl, _, List.mem_append_right _ (List.mem_singleton.2 rfl), rfl⟩,
      by simp [hh, Event.handed]⟩
  refine (keeps_sending words).reach started fun _ l h hs => ?_
  refine (keeps_sending words).perform ⟨id, by simp⟩ hs fun _ l h hs => ?_
  refine (keeps_sending words).perform ⟨id, by simp⟩ hs fun _ l h hs => ?_
  obtain ⟨hu, hh⟩ := hs
  have waited : (Call.completion .tx timeout).Ensures (fun _ _ h' => h'.handed .tx = words)
      (fun _ _ => True) l h := by
    rw [Call.ensures_completion]
    exact ((keeps_offered words).wait (p := .completion .tx timeout) trivial hh).mono
      (fun _ _ _ => ensuresAll_true) fun _ _ _ hh => hh
  rw [Call.ensures_bind]
  refine ((completion_underway timeout hu).and waited).mono ?_ fun _ _ _ => trivial
  intro r l h hp
  obtain ⟨hr, hh⟩ := hp
  cases r with
  | none => exact giveUp_overdue _ (hr.resolve_left (by simp))
  | some r =>
    cases r with
    | done =>
      refine (keeps_offered words).perform ⟨id, by simp⟩ hh fun _ l h hh => ?_
      intro _ _
      exact ⟨rfl, hh⟩
    | error => exact giveUp_overdue _ (hr.resolve_left (by simp))

theorem sendFifo_answered (c : LinkConfig) (words : List Word) (timeout : Nat) (hu : Unsent l h) :
    (sendFifo c words timeout).Ensures
      (fun r _ h' => h'.misses (.push .tx) ≤ (c.budget timeout).naps + 1 →
        r = .ok () ∧ h'.handed .tx = words)
      (fun _ _ => True) l h := by
  refine keeps_unsent.perform ⟨id, by simp⟩ hu fun _ l h hu => ?_
  obtain ⟨-, hh, hm⟩ := hu
  rw [Call.ensures_bind]
  refine (fill_misses words).imp ?_
  intro rest l h' hp
  obtain ⟨hf, hr⟩ := hp
  cases rest with
  | nil =>
    rw [hh, List.append_nil, List.nil_append] at hf
    refine (keeps_offered words).perform ⟨id, by simp⟩ hf fun _ l h hf => ?_
    refine (keeps_offered words).perform ⟨id, by simp⟩ hf fun _ l h hf => ?_
    intro _
    exact ⟨rfl, hf⟩
  | cons word rest =>
    rw [hh, List.nil_append] at hf
    rw [hm, if_neg (by simp)] at hr
    have keeps := (keeps_offered (h'.handed .tx)).and (keeps_refused (0 + 1))
    refine keeps.perform ⟨id, by simp⟩ ⟨rfl, hr⟩ fun _ l h1 hk => ?_
    refine keeps.perform ⟨id, by simp⟩ hk fun _ l h1 hk => ?_
    obtain ⟨hk, hm⟩ := hk
    rw [Call.ensures_bind]
    refine (feed_misses _ _).imp ?_
    intro fed l h2 hs
    cases fed with
    | false =>
      rw [if_neg (by simp), hm] at hs
      rw [if_neg (by simp), Call.ensures_bind, Call.ensures_performAll]
      refine ((keeps_refused _).all ?_ hs).mono ?_
      · simp [Action.scrap, Action.setIdle, Action.SendsNothing, Action.Handles, Command.Starts]
      · intro l h3 hm hn
        omega
    | true =>
      rw [if_pos rfl, hk, hf] at hs
      refine (keeps_offered words).perform ⟨id, by simp⟩ hs fun _ l h hs => ?_
      intro _
      exact ⟨rfl, hs⟩

theorem sendWords_answered (c : LinkConfig) (words : List Word) (timeout : Nat)
    (fits : words.length ≤ WordStream.capacity) (hl : l.tx = .idle) (hu : Unsent l h)
    (ht : h.misses .turn = 0) :
    (sendWords c words timeout).Ensures
      (fun r _ h' => h'.Toward (SendAnswered c words.length timeout) →
        r = .ok () ∧ h'.handed .tx = words)
      (fun _ _ => True) l h := by
  have hx := keeps_unsent.act .txState ⟨id, by simp⟩ .idle l h hu
  rw [sendWords, Call.ensures_bind, Call.ensures_txState, Action.Ensures, hl, if_neg (by simp),
    Call.ensures_bind, Call.ensures_status, Action.Ensures]
  by_cases hs : l.status .tx = .notStarted
  · rw [hs, if_neg (by simp), Call.ensures_bind]
    have hy := keeps_unsent.act (.status .tx) ⟨id, by simp⟩ .notStarted l _ hx
    refine ((takeBusTurn_misses c).and (takeBusTurn_unsent c hy)).mono ?_ fun _ _ _ => trivial
    intro taken l h' hp
    obtain ⟨hm, hu⟩ := hp
    cases taken with
    | false =>
      intro hw
      have hn := hm rfl
      have hle := hw.misses_le fun _ hp => hp.turn
      simp [ht, Event.miss?] at hn
      omega
    | true =>
      rw [if_pos rfl]
      cases hc : c.mode with
      | dma =>
        refine (sendDma_answered words timeout fits hu).imp ?_
        intro r l h' hp hw
        exact hp (hw.solicited fun _ hp => hp.solicited) (hw.completes fun _ hp => hp.sent hc)
      | fifo =>
        refine (sendFifo_answered c words timeout hu).imp ?_
        intro r l h' hp hw
        exact hp (hw.misses_le fun _ hp => hp.taken hc)
  · rw [if_pos hs]
    intro hw
    have hn := (hx.1 (hw.of_append.solicited fun _ hp => hp.solicited)).1
    exact (hs hn).elim

/-- A send that the hardware answers in time succeeds and hands over its words. -/
theorem send_answered (c : LinkConfig) (bytes : List Byte) (timeout : Nat) {words : List Word}
    (he : WordStream.encode bytes c.maxFrameBytes = .ok words) (hn : words ≠ [])
    (hl : l.tx = .idle) (hu : Unsent l h) (ht : h.misses .turn = 0) :
    (send c bytes timeout).Ensures
      (fun r _ h' => h'.Toward (SendAnswered c words.length timeout) →
        r = .ok () ∧ h'.handed .tx = words)
      (fun _ _ => True) l h := by
  have fits := WordStream.length_encode he
  rw [send, he]
  cases words with
  | nil => exact (hn rfl).elim
  | cons word words =>
    cases hc : c.mode with
    | fifo => exact sendWords_answered c _ timeout fits hl hu ht
    | dma =>
      simp only [Call.ensures_bind, Call.ensures_capacity]
      intro n
      split
      · rename_i hlt
        intro hw
        have hle := hw.forall_mem (e := .acted (.capacity .tx) n) (by simp) fun _ hp => hp.room hc
        simp [Event.fits] at hle
        rw [List.length_cons] at hlt
        omega
      · have hx := keeps_unsent.act (.capacity .tx) ⟨id, by simp⟩ n l h hu
        exact sendWords_answered c _ timeout fits hl hx (by simp [ht, Event.miss?])

end Joybus.Transceiver
