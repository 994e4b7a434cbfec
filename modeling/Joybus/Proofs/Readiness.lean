import Joybus.Proofs.Phases

/-! Between operations the transmit side is idle and the cells are unused, but for an armed receive,
as long as engines report on cells in use alone. -/
namespace Joybus.Transceiver

open Completion (Cells Status)

variable {α σ : Type} {d : Direction} {l : Link} {h : Trace} {c : LinkConfig}

/-- An engine reports on a cell that is not in use. -/
def Event.Stray : Event → Prop
  | .marked _ s => s = .notStarted
  | _ => False

instance (e : Event) : Decidable e.Stray :=
  match e with
  | .marked _ s => inferInstanceAs (Decidable (s = .notStarted))
  | .acted _ _ | .consumed _ | .delayed _ => .isFalse id

/-- Engines report on cells in use alone. -/
def Trace.Solicited (h : Trace) : Prop := ∀ e ∈ h, ¬ e.Stray

instance (h : Trace) : Decidable h.Solicited := inferInstanceAs (Decidable (∀ e ∈ h, ¬ e.Stray))

theorem Trace.Solicited.of_append {ev : Trace} (hs : Trace.Solicited (h ++ ev)) : h.Solicited := by
  intro e he
  exact hs e (List.mem_append_left ev he)

theorem Trace.Solicited.append {ev : Trace} (hs : h.Solicited) (hv : ev.Solicited) :
    Trace.Solicited (h ++ ev) := by
  intro e he
  rcases List.mem_append.1 he with he | he
  · exact hs e he
  · exact hv e he

/-- A report on an unused cell is none that was asked for. -/
theorem Trace.Solicited.dir_ne {m : Mark}
    (hs : Trace.Solicited (h ++ [.marked m (l.status m.dir)])) (hl : l.status d = .notStarted) :
    m.dir ≠ d := by
  intro hd
  refine hs (.marked m (l.status m.dir)) (by simp) ?_
  rw [hd]
  exact hl

theorem status_effect {a : Action} (ha : ¬ a.Handles d) (x : a.Answer) (l : Link) :
    (a.effect x l).status d = l.status d := by
  cases a with
  | command c => exact Link.status_deposit l c x d
  | arm e | disarm e => exact congrArg _ (Cells.get_modify_of_ne _ _ (Ne.symm ha))
  | _ => rfl

theorem keeps_unused : Keeps (¬ ·.Handles d) (· ≠ d)
    fun l h => h.Solicited → l.status d = .notStarted where
  act a ha x l h hu hs := by
    rw [status_effect ha]
    exact hu hs.of_append
  mark m l h hu hs := by
    have hl := hu hs.of_append
    rw [Link.status_mark, if_neg (hs.dir_ne hl), hl]
  wake e l h hu hs := by
    rw [Link.status_leaveWaker]
    exact hu hs
  delay us l h hu hs := hu hs.of_append
  take e he r l h _ hu hs := by
    rw [Link.status_take_of_ne l (Ne.symm he)]
    exact hu hs.of_append

/-- The cell of direction `d` is used for transfers alone. -/
def unusedCells (d : Direction) : Phases d where
  free l h := h.Solicited → l.status d = .notStarted
  checked l h := h.Solicited → l.status d = .notStarted
  armed _ _ := True
  busy _ _ := True
  keeps_free := keeps_unused
  keeps_checked := keeps_unused
  keeps_busy := keeps_any_avoiding d
  free_of_checked _ _ hc := hc
  busy_of_free _ _ _ := trivial
  check _ _ hs _ _ := hs
  arm _ _ _ := trivial
  note _ _ _ _ _ _ := trivial
  start _ _ _ _ _ _ := trivial
  stop ms l _ _ _ := by
    simp [Action.effect, Link.status, Completion.Cell.disarm]
  consume r l h hr _ _ := by
    rw [Link.status_take_self, Status.isFinished, hr]
    rfl

/-- What the transmit side is doing, it notes itself. -/
theorem keeps_tx (s : TxState) :
    Keeps (fun a => ∀ t, a ≠ .setTx t) (fun _ => True) fun l _ => l.tx = s where
  act a ha x l _ hl := by
    cases a with
    | command c => rw [Action.effect, Link.deposit_tx, hl]
    | setTx t => exact (ha t rfl).elim
    | _ => exact hl
  mark _ _ _ hl := hl
  wake _ _ _ hl := hl
  delay _ _ _ hl := hl
  take _ _ _ _ _ _ hl := hl

theorem not_setTx_of_rx (a : Action) (ha : a.side = .rx) : ∀ t, a ≠ .setTx t := by
  rintro t rfl
  exact Direction.noConfusion ha

section Idle

theorem abandon_idle : Action.EnsuresAll (fun l _ => l.tx = .idle) (Action.abandon .tx) l h := by
  intro x ms
  rfl

theorem scrap_idle : Action.EnsuresAll (fun l _ => l.tx = .idle) (Action.scrap .tx) l h := by
  intro x ms
  rfl

theorem sendDma_idle (words : List Word) (timeout : Nat) :
    (sendDma words timeout).Ensures (fun _ l _ => l.tx = .idle) (fun l _ => l.tx = .idle) l h := by
  have given_up : ∀ {r : Except TxError Unit} {l h},
      (do Call.performAll (Action.abandon .tx); Call.reset .tx; pure r : Call _).Ensures
        (fun _ l _ => l.tx = .idle) (fun l _ => l.tx = .idle) l h := by
    intro r l h
    rw [Call.ensures_bind, Call.ensures_performAll]
    refine abandon_idle.mono ?_
    intro l h hl
    exact (keeps_tx .idle).perform (by simp) hl fun _ _ _ hl => hl
  refine keeps_true.stage trivial trivial trivial fun _ _ l h _ => ?_
  refine keeps_true.perform trivial trivial fun _ l h _ => ?_
  refine keeps_true.perform trivial trivial fun _ l h _ => ?_
  refine keeps_true.perform trivial trivial fun _ l h _ => ?_
  refine keeps_true.perform trivial trivial fun _ l h _ => ?_
  refine keeps_true.perform trivial trivial fun _ l h _ => ?_
  rw [Call.ensures_bind, Call.ensures_completion]
  refine (keeps_true.wait (p := .completion .tx timeout) trivial trivial).mono ?_ ?_
  · intro l h _
    exact abandon_idle
  · intro r l h _
    cases r with
    | none => exact given_up
    | some r =>
      cases r with
      | done => rfl
      | error => exact given_up

theorem sendFifo_idle (c : LinkConfig) (words : List Word) (timeout : Nat) :
    (sendFifo c words timeout).Ensures (fun _ l _ => l.tx = .idle) (fun l _ => l.tx = .idle)
      l h := by
  refine keeps_true.perform trivial trivial fun _ l h _ => ?_
  have filled : (fill words).Uses (fun _ => True) fun _ _ => False := fill_uses fun _ => trivial
  rw [Call.ensures_bind]
  refine (keeps_true.uses filled (fun _ ha => ha) (fun _ _ hw => hw.elim)
    (fun _ _ hw => hw.elim) trivial).imp ?_
  intro rest l h _
  cases rest with
  | nil =>
    refine keeps_true.perform trivial trivial fun _ l h _ => ?_
    rfl
  | cons word rest =>
    refine keeps_true.perform trivial trivial fun _ l h _ => ?_
    refine keeps_true.perform trivial trivial fun _ l h _ => ?_
    have fed : (feed (word :: rest) (c.budget timeout)).Uses (fun _ => True)
        fun p undo => p.IsNap ∧ undo = Action.scrap .tx :=
      feed_uses (fun _ => trivial) fun _ => ⟨trivial, rfl⟩
    rw [Call.ensures_bind]
    refine (keeps_true.uses fed (fun _ ha => ha) ?_ ?_ trivial).imp ?_
    · intro p undo _
      exact p.within_any
    · rintro p undo ⟨-, rfl⟩ l h -
      exact scrap_idle
    · intro fed l h _
      cases fed with
      | false =>
        rw [if_neg (by simp), Call.ensures_bind, Call.ensures_performAll]
        exact scrap_idle
      | true => rfl

theorem sendWords_idle (c : LinkConfig) (words : List Word) (timeout : Nat) (hl : l.tx = .idle) :
    (sendWords c words timeout).Ensures (fun _ l _ => l.tx = .idle) (fun l _ => l.tx = .idle)
      l h := by
  refine (keeps_tx .idle).perform (by simp) hl fun s l h hl => ?_
  split
  · exact hl
  refine (keeps_tx .idle).perform (by simp) hl fun s l h hl => ?_
  split
  · exact hl
  have turn : (takeBusTurn c).Uses (fun a => ∀ t, a ≠ .setTx t) fun p undo => p.IsNap ∧ undo = [] :=
    takeBusTurn_uses (by simp) (by simp) (by simp) fun _ => ⟨trivial, rfl⟩
  rw [Call.ensures_bind]
  refine ((keeps_tx .idle).uses turn (fun _ ha => ha) ?_ ?_ hl).imp ?_
  · intro p undo _
    exact p.within_any
  · rintro p undo ⟨-, rfl⟩ l h hl
    exact hl
  · intro taken l h hl
    cases taken with
    | false => exact hl
    | true =>
      cases hm : c.mode with
      | dma => exact sendDma_idle words timeout
      | fifo => exact sendFifo_idle c words timeout

theorem send_idle (c : LinkConfig) (bytes : List Byte) (timeout : Nat) (hl : l.tx = .idle) :
    (send c bytes timeout).Ensures (fun _ l _ => l.tx = .idle) (fun l _ => l.tx = .idle) l h := by
  unfold send
  split
  · exact hl
  · exact hl
  · cases hm : c.mode with
    | fifo => exact sendWords_idle c _ timeout hl
    | dma =>
      refine (keeps_tx .idle).perform (by simp) hl fun n l h hl => ?_
      split
      · exact hl
      · exact sendWords_idle c _ timeout hl

end Idle

theorem kept_idle : Kept fun _ l _ => l.tx = .idle where
  send c bytes timeout _ _ hl := send_idle c bytes timeout hl
  arm c len _ _ hl := (keeps_tx .idle).onSide (armReceive_onSide c len) not_setTx_of_rx trivial hl
  finish c timeout _ _ hl :=
    (keeps_tx .idle).onSide (finishReceive_onSide c timeout) not_setTx_of_rx trivial hl
  cancel c _ _ hl :=
    (keeps_tx .idle).uses (cancelReceive_onSide c) not_setTx_of_rx (fun _ _ hw => hw.elim)
      (fun _ _ hw => hw.elim) hl
  marks _ _ _ _ hl := by rw [Link.markAll_tx, hl]
  take _ _ _ _ hl := hl
  recreate _ _ _ _ _ := by
    intro _ _ _ _
    rfl

/-- Both directions are ready for new transfers, the receive side unless a receive is armed. -/
structure Ready (c : LinkConfig) (l : Link) : Prop where
  tx : l.tx = .idle
  sent : l.status .tx = .notStarted
  received : ¬ Receiving c l → l.status .rx = .notStarted

/-- Nothing is under way, if only what is asked for is reported. -/
def AtRest (c : LinkConfig) (l : Link) (h : Trace) : Prop :=
  l.tx = .idle ∧ Phases.Resting unusedCells c l h

theorem AtRest.ready (ha : AtRest c l h) (hs : h.Solicited) : Ready c l := by
  obtain ⟨idle, sent, rest⟩ := ha
  exact ⟨idle, sent hs, fun hn => rest.free hn hs⟩

theorem atRest_start (config : LinkConfig) (hardware : σ) :
    AtRest config (Session.start config hardware).world.link [] :=
  ⟨rfl, fun _ => rfl, .inl fun _ => rfl⟩

theorem kept_atRest : Kept AtRest :=
  kept_idle.and (Phases.kept_resting unusedCells fun _ _ _ hf => hf)

theorem solicited_flatten {traces : List Trace} (hs : ∀ tr ∈ traces, tr.Solicited) :
    Trace.Solicited traces.flatten := by
  intro e he
  obtain ⟨tr, htr, he⟩ := List.mem_flatten.1 he
  exact hs tr htr e he

end Joybus.Transceiver
