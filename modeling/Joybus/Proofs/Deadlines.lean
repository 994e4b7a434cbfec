import Mathlib.Algebra.Order.Floor.Div
import Joybus.Proofs.Sessions
import Joybus.Proofs.Spending

/-! Waits are bounded: a call never asks more of its delay than its budgets in all, and a polled
wait in steps that are neither empty nor longer than the interval between two looks. -/
namespace Joybus.Transceiver

variable {σ : Type} {W : Wait → Prop} {c : LinkConfig} {l : Link} {h : Trace}

/-- A sleep of a polled wait is neither empty nor longer than the interval between two looks; only
an engine is waited for until the call's deadline. -/
def Wait.Paced (c : LinkConfig) (deadline : Option Nat) : Wait → Prop
  | .nap us => 1 ≤ us ∧ us ≤ max c.pollInterval 1
  | .completion _ us => c.mode = .dma ∧ deadline = some us

theorem budget_paced (c : LinkConfig) (total : Nat) (deadline : Option Nat) :
    ∀ us, 1 ≤ us → us ≤ (c.budget total).step → Wait.Paced c deadline (.nap us) := by
  intro us positive short
  rw [c.step_budget] at short
  exact ⟨positive, short⟩

/-- The sleeps of a polled wait are its budget in steps, rounded up. -/
theorem naps_budget (c : LinkConfig) (total : Nat) :
    (c.budget total).naps = total ⌈/⌉ max c.pollInterval 1 := by
  rw [Budget.naps_eq, c.step_budget, c.remaining_budget, Nat.ceilDiv_eq_add_pred_div]

section Calls
variable {deadline : Option Nat} {len timeout : Nat} {undo : List Action} {words : List Word}

open Call

theorem takeBusTurn_costs (c : LinkConfig) :
    (takeBusTurn c).Costs (Wait.Paced c deadline) c.busTurnTimeout := by
  have waits := awaitBusTurn_costs (budget_paced c c.busTurnTimeout deadline)
  refine (waits.bind (m := 0) ?_).weaken (Nat.le_refl _)
  intro seen
  cases seen with
  | true => exact costs_then fun _ => costs_pure _
  | false => exact costs_then fun _ => costs_pure _

theorem sendDma_costs (hm : c.mode = .dma) :
    (sendDma words timeout).Costs (Wait.Paced c (some timeout)) timeout := by
  refine costs_then fun _ => costs_then fun _ => costs_then fun _ => costs_then fun _ =>
    costs_then fun _ => costs_then fun _ => costs_then fun _ =>
    costs_completion (n := 0) ⟨hm, rfl⟩ ?_
  intro r
  cases r with
  | none => exact costs_performAll (costs_then fun _ => costs_pure _)
  | some r =>
    cases r with
    | done => exact costs_then fun _ => costs_pure _
    | error => exact costs_performAll (costs_then fun _ => costs_pure _)

theorem fill_costs : (fill words).Costs W 0 := by
  induction words with
  | nil => exact costs_pure _
  | cons word words ih =>
    refine costs_then ?_
    intro taken
    cases taken with
    | true => exact ih
    | false => exact costs_pure _

theorem sendFifo_costs : (sendFifo c words timeout).Costs (Wait.Paced c deadline) timeout := by
  have feeds : ∀ rest, (feed rest (c.budget timeout)).Costs (Wait.Paced c deadline) timeout :=
    fun rest => feed_costs rest (budget_paced c timeout deadline)
  refine costs_then fun _ => (fill_costs.bind (m := timeout) ?_).weaken (by omega)
  intro rest
  cases rest with
  | nil => exact costs_then fun _ => costs_then fun _ => costs_pure _
  | cons word rest =>
    refine costs_then fun _ => costs_then fun _ => (feeds (word :: rest)).bind (m := 0) ?_
    intro fed
    cases fed with
    | true => exact costs_then fun _ => costs_pure _
    | false => exact costs_performAll (costs_pure _)

theorem sendWords_costs : (sendWords c words timeout).Costs (Wait.Paced c (some timeout))
    (c.busTurnTimeout + timeout) := by
  refine costs_then fun s => ?_
  split
  · exact costs_pure _
  refine costs_then fun s => ?_
  split
  · exact costs_pure _
  refine (takeBusTurn_costs c).bind ?_
  intro taken
  cases taken with
  | false => exact costs_pure _
  | true =>
    cases hm : c.mode with
    | dma => exact sendDma_costs hm
    | fifo => exact sendFifo_costs

theorem send_costs (c : LinkConfig) (bytes : List Byte) (timeout : Nat) :
    (send c bytes timeout).Costs (Wait.Paced c (some timeout)) (c.busTurnTimeout + timeout) := by
  unfold send
  split
  · exact costs_pure _
  · exact costs_pure _
  · cases hm : c.mode with
    | fifo => exact sendWords_costs
    | dma =>
      refine costs_then fun n => ?_
      split
      · exact costs_pure _
      · exact sendWords_costs

theorem publish_costs :
    (publish c len undo).Costs (Wait.Paced c deadline) c.busTurnTimeout := by
  intro spare
  have pushes := pushWithin_affords .rx (WordStream.header len) undo spare
    (budget_paced c c.busTurnTimeout deadline)
  rw [publish, affords_bind]
  refine pushes.mono (Nat.le_refl _) ?_
  intro r i j hij hr
  cases r with
  | none => exact Nat.le_trans hr hij
  | some left => exact Nat.le_trans (Nat.le_add_left spare _) (Nat.le_trans hr.2 hij)

theorem armReceive_costs (c : LinkConfig) (len : Nat) :
    (armReceive c len).Costs (Wait.Paced c deadline) c.busTurnTimeout := by
  unfold armReceive
  split
  · exact costs_pure _
  refine costs_then fun expected => ?_
  split
  · exact costs_pure _
  refine costs_then fun status => ?_
  split
  · exact costs_pure _
  split
  · exact costs_then fun _ => costs_pure _
  cases hm : c.mode with
  | fifo =>
    refine (publish_costs.bind (m := 0) ?_).weaken (Nat.le_refl _)
    intro taken
    cases taken with
    | true => exact costs_then fun _ => costs_then fun _ => costs_pure _
    | false => exact costs_then fun _ => costs_pure _
  | dma =>
    refine costs_then fun n => ?_
    split
    · exact costs_pure _
    refine costs_then fun _ => fun spare _ => costs_then (fun _ =>
      (publish_costs.bind (m := 0) ?_).weaken (Nat.le_refl _)) spare
    intro taken
    cases taken with
    | true => exact costs_then fun _ => costs_pure _
    | false => exact costs_performAll (costs_then fun _ => costs_pure _)

theorem finishDma_costs (hm : c.mode = .dma) :
    (finishDma c len timeout).Costs (Wait.Paced c (some timeout)) timeout := by
  refine costs_then fun _ => costs_completion (n := 0) ⟨hm, rfl⟩ ?_
  intro r
  cases r with
  | none => exact costs_performAll (costs_then fun _ => costs_pure _)
  | some r =>
    cases r with
    | done => exact costs_then fun _ => costs_then fun _ => costs_pure _
    | error => exact costs_performAll (costs_then fun _ => costs_pure _)

theorem finishFifo_costs : (finishFifo c len timeout).Costs (Wait.Paced c deadline) timeout := by
  have collects := collect_costs (c.packing.wordCount len) 0 (budget_paced c timeout deadline)
  refine costs_then fun _ => (collects.bind (m := 0) ?_).weaken (Nat.le_refl _)
  intro all
  cases all with
  | true => exact costs_then fun _ => costs_then fun _ => costs_pure _
  | false => exact costs_performAll (costs_pure _)

theorem finishReceive_costs (c : LinkConfig) (timeout : Nat) :
    (finishReceive c timeout).Costs (Wait.Paced c (some timeout)) timeout := by
  refine costs_then fun expected => ?_
  cases expected with
  | none => exact costs_pure _
  | some len =>
    refine costs_then fun _ => ?_
    split
    · exact costs_pure _
    · cases hm : c.mode with
      | dma => exact finishDma_costs hm
      | fifo => exact finishFifo_costs

theorem cancelReceive_costs (c : LinkConfig) : (cancelReceive c).Costs W 0 := by
  refine costs_then fun expected => ?_
  split
  · refine costs_then fun _ => ?_
    cases hm : c.mode with
    | dma => exact costs_performAll (costs_then fun _ => costs_then fun _ => costs_pure _)
    | fifo => exact costs_then fun _ => costs_then fun _ => costs_pure _
  · exact costs_pure _

theorem receive_costs (c : LinkConfig) (len timeout : Nat) :
    (receive c len timeout).Costs (Wait.Paced c (some timeout)) (c.busTurnTimeout + timeout) := by
  refine (armReceive_costs c len).bind ?_
  intro r
  cases r with
  | error e => exact costs_pure _
  | ok => exact finishReceive_costs c timeout

/-- Each of the two halves of an exchange has budgets of its own. -/
theorem exchange_costs (c : LinkConfig) (bytes : List Byte) (len timeout : Nat) :
    (exchange c bytes len timeout).Costs (Wait.Paced c (some timeout))
      (2 * c.busTurnTimeout + 2 * timeout) := by
  unfold exchange
  split
  · exact costs_pure _
  have halves : c.busTurnTimeout + (c.busTurnTimeout + timeout + timeout) =
      2 * c.busTurnTimeout + 2 * timeout := by omega
  rw [← halves]
  refine (armReceive_costs c len).bind ?_
  intro r
  cases r with
  | error e => exact costs_pure _
  | ok =>
    refine (send_costs c bytes timeout).bind ?_
    intro r
    cases r with
    | error e =>
      refine Costs.weaken (n := 0 + 0) ?_ (Nat.zero_le _)
      exact (cancelReceive_costs c).bind fun _ => costs_pure _
    | ok =>
      refine (finishReceive_costs c timeout).bind (m := 0) ?_
      intro r
      cases r <;> exact costs_pure _

end Calls

namespace Request

/-- The most that a request asks of the delay in all. -/
def allowance (c : LinkConfig) : Request → Nat
  | send _ timeout | receive _ timeout => c.busTurnTimeout + timeout
  | arm _ => c.busTurnTimeout
  | finish timeout => timeout
  | exchange _ _ timeout => 2 * c.busTurnTimeout + 2 * timeout

/-- How long a request waits for an engine. -/
def timeout? : Request → Option Nat
  | send _ timeout | finish timeout | receive _ timeout | exchange _ _ timeout => some timeout
  | arm _ => none

theorem call_costs (c : LinkConfig) (r : Request) :
    (r.call c).Costs (Wait.Paced c r.timeout?) (r.allowance c) := by
  cases r with
  | send bytes timeout => exact (send_costs c bytes timeout).map _
  | arm len => exact (armReceive_costs c len).map _
  | finish timeout => exact (finishReceive_costs c timeout).map _
  | receive len timeout => exact (receive_costs c len timeout).map _
  | exchange bytes len timeout => exact (exchange_costs c bytes len timeout).map _

end Request

section BusTurn
variable (b : Budget)

/-- The answer to a look at the bus-turn flag. -/
def Event.turn? : Event → Option Bool
  | .acted (.command (.flag .tx i)) seen => if i = busTurnFlag then some seen else none
  | _ => none

/-- What the looks at the bus-turn flag found. -/
def Trace.turns (h : Trace) : List Bool := h.filterMap Event.turn?

namespace Trace

@[simp] theorem turns_nil : turns [] = [] := rfl

@[simp] theorem turns_cons (e : Event) (h : Trace) :
    turns (e :: h) = e.turn?.toList ++ h.turns := by
  cases he : e.turn? <;> simp [turns, he]

@[simp] theorem turns_append (h ev : Trace) : turns (h ++ ev) = h.turns ++ ev.turns := by
  simp [turns]

@[simp] theorem turns_markTrace (l : Link) (ms : List Mark) : turns (l.markTrace ms) = [] := by
  refine List.filterMap_eq_nil_iff.2 ?_
  intro e he
  obtain ⟨m, s, rfl⟩ := Link.mem_markTrace he
  rfl

end Trace

/-- The looks at the bus-turn flag, and the sleeps between them. -/
theorem awaitBusTurn_turns :
    (awaitBusTurn b).Ensures
      (fun seen _ h' => if seen then
          ∃ k ≤ b.naps, h'.turns = h.turns ++ List.replicate k false ++ [true]
        else h'.turns = h.turns ++ List.replicate (b.naps + 1) false ∧
          h'.slept = h.slept + b.remaining)
      (fun _ _ => True) l h := by
  induction b generalizing l h with
  | spent b spent =>
    rw [awaitBusTurn, if_pos spent, Call.ensures_bind, Call.ensures_readFlag]
    intro seen ms
    cases seen with
    | true => exact ⟨0, Nat.zero_le _, by simp [Event.turn?]⟩
    | false =>
      exact ⟨by simp [Event.turn?, Budget.naps_spent spent], by simp [Event.asked, spent]⟩
  | sleep b unspent ih =>
    have naps := Budget.naps_unspent unspent
    have slept := b.sleep_add_rest
    rw [awaitBusTurn, if_neg unspent, Call.ensures_bind, Call.ensures_readFlag]
    intro seen ms
    cases seen with
    | true => exact ⟨0, Nat.zero_le _, by simp [Event.turn?]⟩
    | false =>
      intro ms'
      refine ⟨ensuresAll_true, ih.imp ?_⟩
      intro seen l h' hs
      cases seen with
      | true =>
        obtain ⟨k, hk, ht⟩ := hs
        refine ⟨k + 1, by omega, ?_⟩
        simpa [Event.turn?, Wait.beginning, List.replicate_succ] using ht
      | false =>
        obtain ⟨ht, hs⟩ := hs
        refine ⟨?_, ?_⟩
        · simpa [Event.turn?, Wait.beginning, List.replicate_succ, naps] using ht
        · simp [Event.asked, Wait.beginning] at hs
          omega

/-- The bus turn is not taken if and only if no look finds it, and then all its budget is spent. -/
theorem takeBusTurn_turns (c : LinkConfig) :
    (takeBusTurn c).Ensures
      (fun taken _ h =>
        (taken = false ↔ h.turns.take ((c.budget c.busTurnTimeout).naps + 1) =
          List.replicate ((c.budget c.busTurnTimeout).naps + 1) false) ∧
        (taken = false → h.slept = c.busTurnTimeout))
      (fun _ _ => True) l [] := by
  rw [takeBusTurn, Call.ensures_bind]
  refine (awaitBusTurn_turns _).imp ?_
  intro seen l h hs
  cases seen with
  | false =>
    obtain ⟨ht, hs⟩ := hs
    intro _ ms
    refine ⟨⟨fun _ => ?_, fun _ => rfl⟩, fun _ => ?_⟩
    · simp [ht, Event.turn?]
    · simpa [Event.asked] using hs
  | true =>
    obtain ⟨k, hk, ht⟩ := hs
    intro _ ms
    refine ⟨⟨by simp, fun all => ?_⟩, by simp⟩
    have found : true ∈ h.turns.take ((c.budget c.busTurnTimeout).naps + 1) := by
      rw [List.take_of_length_le (by simp [ht]; omega), ht]
      simp
    simp [Event.turn?] at all
    rw [all] at found
    simp at found

end BusTurn

/-- Every wait is bounded, whatever the hardware does. A request asks no more of the delay than its
allowance, and each time for a sleep between one microsecond and the poll interval, unless it waits
for an engine until its deadline; so it returns if every delay ends. The bus turn is not taken if
and only if one look more than there are sleeps in its budget finds no flag, and then exactly the
budget is spent. -/
theorem waits_bounded (H : Hardware σ) (s : Session σ) (r : Request) :
    (∀ polls, (s.drive H r.call polls).trace.slept ≤ r.allowance s.config) ∧
    (r.call s.config).Uses (fun _ => True) (fun p _ => p.Paced s.config r.timeout?) ∧
    (∀ polls us, .delayed us ∈ (s.drive H r.call polls).trace →
      1 ≤ us ∧ us ≤ max s.config.pollInterval 1 ∨
        s.config.mode = .dma ∧ r.timeout? = some us) ∧
    (H.Timely → ∃ o, (r.call s.config).Returns H s.world o) ∧
    (∀ polls taken left, (s.drive H takeBusTurn polls).value = .finished taken left →
      let looks := 1 + s.config.busTurnTimeout ⌈/⌉ max s.config.pollInterval 1
      let tr := (s.drive H takeBusTurn polls).trace
      (taken = false ↔ tr.turns.take looks = List.replicate looks false) ∧
        (taken = false → tr.slept = s.config.busTurnTimeout)) := by
  have affords := (r.call_costs s.config).affords
  have asks : ∀ polls, (s.drive H r.call polls).trace.Asks (Wait.Paced s.config r.timeout?)
      (r.allowance s.config) := by
    intro polls
    have unasked : Trace.Asks (Wait.Paced s.config r.timeout?) 0 [] := ⟨Nat.le_refl 0, nofun⟩
    have asked := Call.Ensures.keeps (w := s.world) H (affords.ensures unasked)
      (unasked.weaken (Nat.zero_le _)) polls
    rwa [Nat.zero_add] at asked
  refine ⟨fun polls => (asks polls).total, affords.uses, ?_, ?_, ?_⟩
  · intro polls us hu
    obtain ⟨p, hp, rfl⟩ := (asks polls).each us hu
    cases p with
    | nap us => exact .inl hp
    | completion d us => exact .inr hp
  · intro ht
    exact ht.returns (r.call s.config) s.world
  · intro polls taken left hv looks tr
    have turns := Call.Ensures.finished H (takeBusTurn_turns s.config) hv
    rw [naps_budget, Nat.add_comm] at turns
    exact turns

/-- A bus turn that never comes, looked for every three microseconds out of ten: the last of four
sleeps is shorter. -/
theorem waits_bounded_unturned :
    let s : Session Bench.Script := Session.start { busTurnTimeout := 10, pollInterval := 3 }
      { tx := { flags := ⟨[], false⟩, programCounter := 7, origin := 3 } }
    let r : Request := .send [0x01] 20
    let o := s.drive prompt takeBusTurn 1
    o.value = .finished false 1 ∧ o.trace.turns.take 5 = List.replicate 5 false ∧
      o.trace.slept = 10 ∧ (s.drive prompt r.call 1).trace.slept ≤ 30 ∧
      ∃ o, (r.call s.config).Returns prompt s.world o := by
  intro s r o
  have value : o.value = .finished false 1 := by decide +kernel
  obtain ⟨total, -, -, returns, turn⟩ := waits_bounded prompt s r
  obtain ⟨looks, spent⟩ := turn 1 false 1 value
  have five : 1 + s.config.busTurnTimeout ⌈/⌉ max s.config.pollInterval 1 = 5 := by decide
  rw [five] at looks
  exact ⟨value, looks.1 rfl, spent rfl, total 1, returns prompt_timely⟩

end Joybus.Transceiver
