import Joybus.Proofs.Unwinding

/-! Sends that fail or are cut: while they look for the bus turn nothing needs undoing, and from
there on the transfer is unwound. -/
namespace Joybus.Transceiver

open Trace

variable {d : Direction} {l : Link} {h : Trace}

theorem keeps_inVain : Keeps (fun a => ∀ x, (Event.acted a x).looksInVain) (fun _ => True)
    fun _ h => ∀ e ∈ h, e.looksInVain :=
  keeps_forall fun _ he => (inert_of_passive (d := .tx) he).2.2.2

/-- Who only looks for the bus turn has neither reset nor started anything. -/
theorem spared_of_inVain (hv : ∀ e ∈ h, e.looksInVain) : h.Spared d := by
  have untouched : ∀ e ∈ h, ¬ e.resets d ∧ ¬ e.Starts d := by
    intro e he
    have hx := hv e he
    cases e with
    | acted a x =>
      cases a with
      | command c =>
        cases c <;> simp_all [Event.looksInVain, Event.resets, Event.Starts, Command.Starts]
      | _ => simp [Event.resets, Event.Starts]
    | _ => simp [Event.resets, Event.Starts]
  exact ⟨fun e he => (untouched e he).1, followed_of_none fun e he => (untouched e he).2⟩

/-- A wait for the bus turn is cut only as long as the flag is down. -/
theorem awaitBusTurn_inVain (b : Budget) (hv : ∀ e ∈ h, e.looksInVain) :
    (awaitBusTurn b).Ensures (fun _ _ _ => True) (fun _ h => ∀ e ∈ h, e.looksInVain) l h := by
  induction b generalizing l h with
  | spent b spent =>
    rw [awaitBusTurn, if_pos spent, Call.ensures_bind, Call.ensures_readFlag]
    intro seen ms
    cases seen <;> trivial
  | sleep b unspent ih =>
    rw [awaitBusTurn, if_neg unspent, Call.ensures_bind, Call.ensures_readFlag]
    intro seen ms
    cases seen with
    | true => trivial
    | false =>
      have looked := keeps_inVain.command (l := l) (c := .flag .tx busTurnFlag) (x := false) ms
        (List.forall_mem_append.2 ⟨hv, by simp⟩)
      simp only [Bool.false_eq_true, if_false, Call.ensures_bind, Call.ensures_nap]
      refine (keeps_inVain.wait (p := .nap _) trivial looked).mono ?_ ?_
      · intro l h hv
        exact hv
      · intro _ l h hv
        exact ih hv

theorem takeBusTurn_unwinds (c : LinkConfig) (hv : ∀ e ∈ h, e.looksInVain) :
    (takeBusTurn c).Ensures
      (fun taken _ h =>
        if taken then (∃ e ∈ h, e.token? = some .taken) ∧ h.Spared .tx
        else h.ResetLast .tx ∧ h.Stopped .tx)
      (fun _ h => ∀ e ∈ h, e.looksInVain) l h := by
  have looks : (awaitBusTurn (c.budget c.busTurnTimeout)).Uses (Action.Aloof .tx)
      fun p undo => p.IsNap ∧ undo = [] :=
    awaitBusTurn_uses (by simp) fun _ => ⟨trivial, rfl⟩
  have untouched := (keeps_spared .tx).uses (l := l) looks (fun _ ha => ha)
    (fun p _ _ => p.within_any) (by rintro p undo ⟨-, rfl⟩ l h hk; exact hk)
    (spared_of_inVain hv)
  rw [takeBusTurn, Call.ensures_bind]
  refine (untouched.and (awaitBusTurn_inVain _ hv)).mono ?_ fun _ _ hr => hr.2
  rintro seen l h ⟨hu, -⟩
  cases seen with
  | false => exact reset_unwinds hu fun _ _ hr => hr
  | true =>
    refine ((keeps_mem (·.token? = some .taken)).both (keeps_spared .tx)).reach ?_
      fun _ _ _ hk => hk
    intro x
    exact ⟨⟨_, List.mem_append_right _ (List.mem_singleton.2 rfl), rfl⟩,
      (keeps_spared .tx).act (.command (.clear .tx busTurnFlag)) (by simp) x l h hu⟩

theorem sendDma_unwinds (words : List Word) (timeout : Nat) (hu : h.Unreset .tx) :
    (sendDma words timeout).Ensures
      (fun r _ h => (Reply.sent r).Failed → h.ResetLast .tx ∧ h.Stopped .tx)
      (fun _ => CutShort .dma .tx) l h := by
  have failed : ∀ {r : Except TxError Unit} {l h}, Unreset .tx h →
      (do Call.performAll (Action.abandon .tx); Call.reset .tx; pure r : Call _).Ensures
        (fun r _ h => (Reply.sent r).Failed → h.ResetLast .tx ∧ h.Stopped .tx)
        (fun _ => CutShort .dma .tx) l h := by
    intro r l h hu
    exact (giveUp_resets r hu).imp fun _ _ _ hr _ => ⟨hr.2.1, hr.2.2.1⟩
  have keeps := keeps_unreset .tx
  refine keeps.stage (by simp) (by simp) hu fun _ _ l h hu => ?_
  refine keeps.perform (by simp) hu fun _ l h hu => ?_
  refine keeps.perform (by simp) hu fun _ l h hu => ?_
  refine keeps.perform (by simp) hu fun _ l h hu => ?_
  refine keeps.perform (by simp) hu fun _ l h hu => ?_
  refine keeps.perform (by simp) hu fun _ l h hu => ?_
  refine completion_unwinds hu fun r l h hu => ?_
  cases r with
  | none => exact failed hu
  | some r =>
    cases r with
    | done => exact keeps_true.perform trivial trivial fun _ _ _ _ hf => hf.elim
    | error => exact failed hu

theorem sendFifo_unwinds (c : LinkConfig) (words : List Word) (timeout : Nat)
    (hu : h.Spared .tx) :
    (sendFifo c words timeout).Ensures
      (fun r _ h => (Reply.sent r).Failed → h.ResetLast .tx ∧ h.Stopped .tx)
      (fun _ => CutShort .fifo .tx) l h := by
  have keeps := keeps_spared .tx
  refine keeps.perform (by simp) hu fun _ l h hu => ?_
  have pushes : (fill words).Uses (Action.Aloof .tx) fun _ _ => False := fill_uses (by simp)
  rw [Call.ensures_bind]
  refine (keeps.uses pushes (fun _ ha => ha) (fun _ _ hw => hw.elim) (fun _ _ hw => hw.elim)
    hu).imp ?_
  intro rest l h hu
  cases rest with
  | nil =>
    refine keeps_true.perform trivial trivial fun _ l h _ => ?_
    exact keeps_true.perform trivial trivial fun _ _ _ _ hf => hf.elim
  | cons word rest =>
    refine keeps.perform (by simp) hu fun _ l h hu => ?_
    refine keeps.perform (by simp) hu fun _ l h hu => ?_
    have fed : (feed (word :: rest) (c.budget timeout)).Uses (Action.Aloof .tx)
        fun p undo => p.IsNap ∧ undo = Action.scrap .tx :=
      feed_uses (by simp) fun _ => ⟨trivial, rfl⟩
    refine fifo_unwinds fed hu fun fed l h hu => ?_
    cases fed with
    | false =>
      rw [if_neg (by simp), Call.ensures_bind, Call.ensures_performAll]
      exact (scrap_cutShort hu).mono fun _ _ hr _ => hr
    | true => exact keeps_true.perform trivial trivial fun _ _ _ _ hf => hf.elim

/-- A send that is cut has only looked for the bus turn, or it has taken it and leaves its transfer
cut short. -/
def Trace.SendCut (m : TransferMode) (h : Trace) : Prop :=
  (∀ e ∈ h, e.looksInVain) ∨ (∃ e ∈ h, e.token? = some .taken) ∧ h.CutShort m .tx

theorem sendWords_unwinds (c : LinkConfig) (words : List Word) (timeout : Nat)
    (hv : ∀ e ∈ h, e.looksInVain) :
    (sendWords c words timeout).Ensures
      (fun r _ h => (Reply.sent r).Failed → h.ResetLast .tx ∧ h.Stopped .tx)
      (fun _ => SendCut c.mode) l h := by
  refine keeps_inVain.perform (by simp) hv fun s l h hv => ?_
  split
  · exact False.elim
  refine keeps_inVain.perform (by simp) hv fun s l h hv => ?_
  split
  · exact False.elim
  rw [Call.ensures_bind]
  refine (takeBusTurn_unwinds c hv).mono ?_ fun _ _ hv => .inl hv
  intro turn l h hn
  cases turn with
  | false => exact fun _ => hn
  | true =>
    simp only [if_true] at hn
    obtain ⟨taken, hu⟩ := hn
    cases hm : c.mode with
    | dma =>
      exact ((sendDma_unwinds words timeout hu.1).and (Call.ensures_mem _ taken)).mono
        (fun _ _ _ hr => hr.1) fun _ _ hr => .inr hr.symm
    | fifo =>
      exact ((sendFifo_unwinds c words timeout hu).and (Call.ensures_mem _ taken)).mono
        (fun _ _ _ hr => hr.1) fun _ _ hr => .inr hr.symm

/-- A send that fails has reset its program once and last, and has stopped what it started. -/
theorem send_unwinds (c : LinkConfig) (bytes : List Byte) (timeout : Nat)
    (hv : ∀ e ∈ h, e.looksInVain) :
    (send c bytes timeout).Ensures
      (fun r _ h => (Reply.sent r).Failed → h.ResetLast .tx ∧ h.Stopped .tx)
      (fun _ => SendCut c.mode) l h := by
  unfold send
  split
  · rename_i e _
    cases e
    exact False.elim
  · exact False.elim
  · split
    · refine keeps_inVain.perform (by simp) hv fun n l h hv => ?_
      split
      · exact False.elim
      · exact sendWords_unwinds c _ timeout hv
    · exact sendWords_unwinds c _ timeout hv

end Joybus.Transceiver
