import Joybus.Proofs.Histories
import Joybus.Proofs.Sessions

/-! The bus-turn token: it is taken when it was just seen, and every taker notifies. -/
namespace Joybus.Transceiver

variable {σ : Type} {h : Trace} {e : Event} {l : Link}

/-- The two ends of a frame's hold on the token. -/
inductive Token where
  | taken
  | notified
deriving DecidableEq, Repr

/-- The token is taken by clearing its flag and handed on by the start notification. -/
def Event.token? : Event → Option Token
  | .acted (.command (.clear .tx i)) _ => if i = busTurnFlag then some .taken else none
  | .acted (.command (.notify .tx)) _ => some .notified
  | _ => none

/-- Words are offered to the transmit hardware. -/
def Event.Feeds : Event → Prop
  | .acted (.command (.startTx _)) _ | .acted (.command (.push .tx _)) _ => True
  | _ => False

def Trace.tokens (h : Trace) : List Token := h.filterMap Event.token?

/-- Each taken token is followed by one notification before the next is taken. -/
inductive Paired : List Token → Prop
  | nil : Paired []
  | cons {ts : List Token} : Paired ts → Paired (.taken :: .notified :: ts)

/-- The last thing done was to read the token's flag, which was raised. -/
def Trace.JustSeen (h : Trace) : Prop :=
  ∃ pre post, h = pre ++ .acted (.command (.flag .tx busTurnFlag)) true :: post ∧
    ∀ e ∈ post, ∃ m s, e = .marked m s

/-- The rules on the token that the trace of every operation obeys. -/
structure Trace.Disciplined (h : Trace) : Prop where
  paired : Paired h.tokens
  seen : h.Each fun pre e => e.token? = some .taken → pre.JustSeen
  fed : h.Each fun pre e => e.Feeds → ∃ x ∈ pre, x.token? = some .taken

/-- The token is taken and the program not yet notified. -/
structure Trace.Holding (h : Trace) : Prop where
  paired : ∃ ts, Paired ts ∧ h.tokens = ts ++ [.taken]
  seen : h.Each fun pre e => e.token? = some .taken → pre.JustSeen
  fed : h.Each fun pre e => e.Feeds → ∃ x ∈ pre, x.token? = some .taken

theorem Paired.append {ts us : List Token} (ht : Paired ts) (hu : Paired us) :
    Paired (ts ++ us) := by
  induction ht with
  | nil => exact hu
  | cons _ ih => exact .cons ih

namespace Trace

theorem tokens_concat (h : Trace) (e : Event) :
    (h ++ [e]).tokens = h.tokens ++ e.token?.toList := by
  cases he : e.token? <;> simp [tokens, he]

/-- The token was taken in this history and the program notified since. -/
def Released (h : Trace) : Prop := h.Disciplined ∧ ∃ x ∈ h, x.token? = some .taken

theorem Holding.taken (hh : h.Holding) : ∃ x ∈ h, x.token? = some .taken := by
  obtain ⟨ts, -, ht⟩ := hh.paired
  have hm : Token.taken ∈ h.filterMap Event.token? := by
    change Token.taken ∈ h.tokens
    simp [ht]
  exact List.mem_filterMap.1 hm

theorem disciplined_nil : Disciplined [] := ⟨.nil, each_nil, each_nil⟩

/-- An event that neither moves the token nor feeds words. -/
theorem Disciplined.concat (hd : h.Disciplined) (ht : e.token? = none) (hf : ¬ e.Feeds) :
    Disciplined (h ++ [e]) := by
  refine ⟨?_, each_concat.2 ⟨hd.seen, ?_⟩, each_concat.2 ⟨hd.fed, ?_⟩⟩
  · simpa [tokens_concat, ht] using hd.paired
  · simp [ht]
  · intro he
    exact (hf he).elim

theorem Holding.concat (hh : h.Holding) (ht : e.token? = none) : Holding (h ++ [e]) := by
  refine ⟨?_, each_concat.2 ⟨hh.seen, ?_⟩, each_concat.2 ⟨hh.fed, ?_⟩⟩
  · simpa [tokens_concat, ht] using hh.paired
  · simp [ht]
  · intro _
    exact hh.taken

theorem Released.concat (hr : h.Released) (ht : e.token? = none) : Released (h ++ [e]) := by
  obtain ⟨hd, x, hx, hxt⟩ := hr
  refine ⟨⟨?_, each_concat.2 ⟨hd.seen, ?_⟩, each_concat.2 ⟨hd.fed, ?_⟩⟩, x, by simp [hx], hxt⟩
  · simpa [tokens_concat, ht] using hd.paired
  · simp [ht]
  · intro _
    exact ⟨x, hx, hxt⟩

theorem Disciplined.take (hd : h.Disciplined) (hs : h.JustSeen) :
    Holding (h ++ [.acted (.command (.clear .tx busTurnFlag)) ()]) := by
  refine ⟨⟨h.tokens, hd.paired, ?_⟩, each_concat.2 ⟨hd.seen, fun _ => hs⟩,
    each_concat.2 ⟨hd.fed, fun hf => hf.elim⟩⟩
  simp [tokens_concat, Event.token?]

theorem Holding.notify (hh : h.Holding) :
    Released (h ++ [.acted (.command (.notify .tx)) ()]) := by
  obtain ⟨ts, hp, ht⟩ := hh.paired
  obtain ⟨x, hx, hxt⟩ := hh.taken
  refine ⟨⟨?_, each_concat.2 ⟨hh.seen, ?_⟩, each_concat.2 ⟨hh.fed, fun hf => hf.elim⟩⟩,
    x, by simp [hx], hxt⟩
  · have hq : Paired (ts ++ [.taken, .notified]) := hp.append (.cons .nil)
    simpa [tokens_concat, ht, Event.token?] using hq
  · simp [Event.token?]

end Trace

theorem tokenless_of_passive (he : e.Passive) : e.token? = none ∧ ¬ e.Feeds := by
  cases e with
  | acted a x => exact he.elim
  | _ => exact ⟨rfl, id⟩

/-- An action that leaves the token where it is. -/
def Action.Tokenless (a : Action) : Prop := ∀ x, (Event.acted a x).token? = none

/-- An action that neither moves the token nor feeds words. -/
def Action.Aside (a : Action) : Prop :=
  ∀ x, (Event.acted a x).token? = none ∧ ¬ (Event.acted a x).Feeds

theorem keeps_disciplined : Keeps Action.Aside (fun _ => True) fun _ => Trace.Disciplined :=
  .of_trace (E := fun e => e.token? = none ∧ ¬ e.Feeds) (fun _ => tokenless_of_passive)
    fun _ _ he hd => hd.concat he.1 he.2

theorem keeps_holding : Keeps Action.Tokenless (fun _ => True) fun _ => Trace.Holding :=
  .of_trace (E := fun e => e.token? = none) (fun _ he => (tokenless_of_passive he).1)
    fun _ _ he hh => hh.concat he

theorem keeps_released : Keeps Action.Tokenless (fun _ => True) fun _ => Trace.Released :=
  .of_trace (E := fun e => e.token? = none) (fun _ he => (tokenless_of_passive he).1)
    fun _ _ he hr => hr.concat he

theorem tokenless_abandon (d : Direction) : ∀ a ∈ Action.abandon d, a.Tokenless := by
  cases d <;> simp [Action.abandon, Action.setIdle, Action.Tokenless, Event.token?]

theorem tokenless_scrap (d : Direction) : ∀ a ∈ Action.scrap d, a.Tokenless := by
  cases d <;> simp [Action.scrap, Action.setIdle, Action.Tokenless, Event.token?]

/-- The receive side has no part in the token. -/
theorem aside_of_rx (a : Action) (ha : a.side = .rx) : a.Aside := by
  intro x
  cases a with
  | command c => cases c <;> simp_all [Action.side, Command.side, Event.token?, Event.Feeds]
  | _ => exact ⟨rfl, id⟩

section Send
variable {α : Type} {call : Call α} {c : LinkConfig} {words : List Word} {timeout : Nat}

open Trace

theorem awaitBusTurn_disciplined (b : Budget) (hd : h.Disciplined) :
    (awaitBusTurn b).Ensures (fun ok _ h => h.Disciplined ∧ (ok = true → h.JustSeen))
      (fun _ => Disciplined) l h := by
  have read : ∀ l h (x : Bool) ms, Disciplined h → Disciplined
      (h ++ .acted (.command (.flag .tx busTurnFlag)) x :: Link.markTrace l ms) := by
    intro l h x ms hd
    exact keeps_disciplined.command (l := l) ms (hd.concat rfl id)
  have seen : ∀ l h ms, JustSeen
      (h ++ .acted (.command (.flag .tx busTurnFlag)) true :: Link.markTrace l ms) := by
    intro l h ms
    exact ⟨h, _, rfl, fun _ => Link.mem_markTrace⟩
  induction b generalizing l h with
  | spent b spent =>
    rw [awaitBusTurn, if_pos spent, Call.ensures_bind, Call.ensures_readFlag]
    intro x ms
    cases x with
    | false => exact ⟨read l h false ms hd, fun hs => Bool.noConfusion hs⟩
    | true => exact ⟨read l h true ms hd, fun _ => seen l h ms⟩
  | sleep b unspent ih =>
    rw [awaitBusTurn, if_neg unspent, Call.ensures_bind, Call.ensures_readFlag]
    intro x ms
    cases x with
    | false =>
      simp only [Bool.false_eq_true, if_false, Call.ensures_bind, Call.ensures_nap]
      refine (keeps_disciplined.wait (p := .nap _) trivial (read l h false ms hd)).mono ?_ ?_
      · intro l h hd
        exact hd
      · intro _ l h hd
        exact ih hd
    | true => exact ⟨read l h true ms hd, fun _ => seen l h ms⟩

theorem takeBusTurn_disciplined (c : LinkConfig) (hd : h.Disciplined) :
    (takeBusTurn c).Ensures (fun ok _ h => if ok then h.Holding else h.Disciplined)
      (fun _ => Disciplined) l h := by
  rw [takeBusTurn, Call.ensures_bind]
  refine (awaitBusTurn_disciplined _ hd).mono ?_ fun _ _ hd => hd
  intro seen l h hp
  obtain ⟨hd, hs⟩ := hp
  cases seen with
  | false => exact keeps_disciplined.perform (fun _ => ⟨rfl, id⟩) hd fun _ _ _ hd => hd
  | true => exact keeps_holding.reach (fun _ => hd.take (hs rfl)) fun _ _ _ hh => hh

section Notifying
variable {P P' : Link → Trace → Prop}

theorem tokenless_of_uses (hk : Keeps Action.Tokenless (fun _ => True) P)
    (hu : call.Uses Action.Tokenless fun _ undo => ∀ a ∈ undo, a.Tokenless) (hp : P l h) :
    call.Ensures (fun _ => P) P l h := by
  refine hk.uses hu (fun _ ha => ha) ?_ ?_ hp
  · intro p undo _
    exact p.within_any
  · intro p undo hu l h hp
    exact hk.all hu hp

/-- An engine send notifies right after the start, before it waits. -/
theorem sendDma_notifies (words : List Word) (timeout : Nat)
    (hk : Keeps Action.Tokenless (fun _ => True) P)
    (hk' : Keeps Action.Tokenless (fun _ => True) P')
    (notify : ∀ l h, P l h → P' l (h ++ [.acted (.command (.notify .tx)) ()])) (hp : P l h) :
    (sendDma words timeout).Ensures (fun _ => P') P' l h := by
  refine hk.stage (fun _ => rfl) (fun _ => rfl) hp fun _ _ l h hp => ?_
  refine hk.perform (fun _ => rfl) hp fun _ l h hp => ?_
  refine hk.perform (fun _ => rfl) hp fun _ l h hp => ?_
  refine hk.perform (fun _ => rfl) hp fun _ l h hp => ?_
  refine hk'.reach (fun _ => notify l h hp) fun _ l h hp => ?_
  refine tokenless_of_uses hk' ?_ hp
  refine Call.uses_then (fun _ => rfl) fun _ => Call.uses_completion (tokenless_abandon .tx) ?_
  intro r
  cases r with
  | none =>
    exact Call.Uses.bind (Call.uses_performAll (tokenless_abandon .tx)) fun _ =>
      Call.uses_then (fun _ => rfl) fun _ => trivial
  | some r =>
    cases r with
    | done => exact Call.uses_then (fun _ => rfl) fun _ => trivial
    | error =>
      exact Call.Uses.bind (Call.uses_performAll (tokenless_abandon .tx)) fun _ =>
        Call.uses_then (fun _ => rfl) fun _ => trivial

/-- A FIFO send notifies once the FIFO is full or all words are queued, before it waits. -/
theorem sendFifo_notifies (c : LinkConfig) (words : List Word) (timeout : Nat)
    (hk : Keeps Action.Tokenless (fun _ => True) P)
    (hk' : Keeps Action.Tokenless (fun _ => True) P')
    (notify : ∀ l h, P l h → P' l (h ++ [.acted (.command (.notify .tx)) ()])) (hp : P l h) :
    (sendFifo c words timeout).Ensures (fun _ => P') P' l h := by
  refine hk.perform (fun _ => rfl) hp fun _ l h hp => ?_
  have pushes : (fill words).Uses Action.Tokenless fun _ _ => False := fill_uses fun _ _ => rfl
  have filled : (fill words).Ensures (fun _ => P) (fun _ _ => False) l h :=
    hk.uses pushes (fun _ ha => ha) (fun _ _ hw => hw.elim) (fun _ _ hw => hw.elim) hp
  rw [Call.ensures_bind]
  refine filled.mono ?_ fun _ _ hf => hf.elim
  intro rest l h hp
  cases rest with
  | nil =>
    refine hk'.reach (fun _ => notify l h hp) fun _ l h hp => ?_
    refine tokenless_of_uses hk' ?_ hp
    exact Call.uses_then (fun _ => rfl) fun _ => trivial
  | cons word rest =>
    refine hk'.reach (fun _ => notify l h hp) fun _ l h hp => ?_
    refine tokenless_of_uses hk' ?_ hp
    refine Call.uses_then (fun _ => rfl) fun _ =>
      Call.Uses.bind (feed_uses (fun _ _ => rfl) fun _ => tokenless_scrap .tx) ?_
    intro fed
    cases fed with
    | false => exact Call.Uses.bind (Call.uses_performAll (tokenless_scrap .tx)) fun _ => trivial
    | true => exact Call.uses_then (fun _ => rfl) fun _ => trivial

end Notifying

theorem sendDma_released (words : List Word) (timeout : Nat) (hh : h.Holding) :
    (sendDma words timeout).Ensures (fun _ _ => Released) (fun _ => Released) l h :=
  sendDma_notifies words timeout keeps_holding keeps_released (fun _ _ hh => hh.notify) hh

theorem sendFifo_released (c : LinkConfig) (words : List Word) (timeout : Nat) (hh : h.Holding) :
    (sendFifo c words timeout).Ensures (fun _ _ => Released) (fun _ => Released) l h :=
  sendFifo_notifies c words timeout keeps_holding keeps_released (fun _ _ hh => hh.notify) hh

theorem sendWords_disciplined (c : LinkConfig) (words : List Word) (timeout : Nat)
    (hd : h.Disciplined) :
    (sendWords c words timeout).Ensures (fun _ _ => Disciplined) (fun _ => Disciplined) l h := by
  refine keeps_disciplined.perform (fun _ => ⟨rfl, id⟩) hd fun s l h hd => ?_
  split
  · exact hd
  refine keeps_disciplined.perform (fun _ => ⟨rfl, id⟩) hd fun s l h hd => ?_
  split
  · exact hd
  rw [Call.ensures_bind]
  refine (takeBusTurn_disciplined c hd).mono ?_ fun _ _ hd => hd
  intro taken l h hn
  cases taken with
  | false => exact hn
  | true =>
    cases hm : c.mode with
    | dma =>
      simp only [if_true]
      exact (sendDma_released words timeout hn).mono (fun _ _ _ hr => hr.1) fun _ _ hr => hr.1
    | fifo =>
      simp only [if_true]
      exact (sendFifo_released c words timeout hn).mono (fun _ _ _ hr => hr.1) fun _ _ hr => hr.1

theorem send_disciplined (c : LinkConfig) (bytes : List Byte) (timeout : Nat)
    (hd : h.Disciplined) :
    (send c bytes timeout).Ensures (fun _ _ => Disciplined) (fun _ => Disciplined) l h := by
  unfold send
  split
  · exact hd
  · exact hd
  · cases hm : c.mode with
    | fifo => exact sendWords_disciplined c _ timeout hd
    | dma =>
      refine keeps_disciplined.perform (fun _ => ⟨rfl, id⟩) hd fun n l h hd => ?_
      split
      · exact hd
      · exact sendWords_disciplined c _ timeout hd

end Send

theorem kept_disciplined : Kept fun _ _ => Trace.Disciplined where
  send c bytes timeout _ _ hd := send_disciplined c bytes timeout hd
  arm c len _ _ hd := keeps_disciplined.onSide (armReceive_onSide c len) aside_of_rx trivial hd
  finish c timeout _ _ hd :=
    keeps_disciplined.onSide (finishReceive_onSide c timeout) aside_of_rx trivial hd
  cancel c _ _ hd :=
    keeps_disciplined.uses (cancelReceive_onSide c) aside_of_rx (fun _ _ hw => hw.elim)
      (fun _ _ hw => hw.elim) hd
  marks _ ms l _ hd := keeps_disciplined.marks (l := l) ms hd
  take _ d l _ hd := keeps_disciplined.consumption (l := l) (d := d) trivial hd
  recreate _ _ _ _ hd := by
    refine keeps_disciplined.all ?_ hd
    simp [farewell, Action.Aside, Event.token?, Event.Feeds]

/-- Bus-turn discipline. In the trace of every operation each taken token is followed by one
notification, it was seen right before it was taken, and no word is offered before; so in a whole
run takings and notifications alternate. -/
theorem bus_turn_discipline (H : Hardware σ) (s : Session σ) (ops : List Operation) :
    (∀ tr ∈ (s.run H ops).1.map Prod.snd, Trace.Disciplined tr) ∧
    Paired (Trace.tokens ((s.run H ops).1.map Prod.snd).flatten) := by
  have each : ∀ tr ∈ (s.run H ops).1.map Prod.snd, Trace.Disciplined tr := by
    intro tr htr
    obtain ⟨_, _, hd⟩ := kept_disciplined.each H (fun _ _ => Trace.disciplined_nil) s ops tr htr
    exact hd
  refine ⟨each, ?_⟩
  generalize (s.run H ops).1.map Prod.snd = traces at each
  induction traces with
  | nil => exact .nil
  | cons tr traces ih =>
    obtain ⟨hd, hs⟩ := List.forall_mem_cons.1 each
    have hp := hd.paired.append (ih hs)
    simpa [Trace.tokens] using hp

end Joybus.Transceiver
