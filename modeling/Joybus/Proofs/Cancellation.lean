import Joybus.Proofs.Failures

/-! Calls that are dropped at a wait: the direction is at rest and its engine stopped, but the
program is reset only where there is no engine. -/
namespace Joybus.Transceiver

open Trace

variable {σ : Type} {d : Direction} {h : Trace} {e : Event} {m : TransferMode} {r : Request}

section Cuts

theorem tokenless_of_inVain (he : e.looksInVain) : e.token? = none := by
  cases e with
  | acted a x =>
    cases a with
    | command c => cases c <;> simp_all [Event.looksInVain, Event.token?]
    | _ => rfl
  | _ => rfl

/-- A send that is cut after it touched the token leaves its transfer cut short. -/
theorem Trace.SendCut.cutShort (hc : h.SendCut m) (ht : ∃ e ∈ h, e.token?.isSome) :
    h.CutShort m .tx := by
  rcases hc with vain | ⟨-, cut⟩
  · obtain ⟨e, he, hx⟩ := ht
    rw [tokenless_of_inVain (vain e he)] at hx
    exact (Bool.false_ne_true hx).elim
  · exact cut

/-- A request that is cut leaves no transfer of its own running. -/
theorem Request.Cut.stopped (hd : r.side? = some d) (hc : r.Cut m h) : h.Stopped d := by
  cases r with
  | send bytes timeout =>
    cases Option.some.inj hd
    rcases hc with vain | ⟨-, cut⟩
    · exact (spared_of_inVain vain).2
    · exact cut.stopped
  | arm len =>
    cases Option.some.inj hd
    exact hc.2.2
  | finish timeout =>
    cases Option.some.inj hd
    exact CutShort.stopped hc
  | receive len timeout =>
    cases Option.some.inj hd
    rcases hc with unarmed | cut
    · exact unarmed.2.2
    · exact cut.stopped
  | exchange bytes len timeout => simp [Request.side?] at hd

/-- The program got what makes it run on: a send notified it, or the receive program took the bit
count, as it has whenever a wait for an armed receive goes on. -/
def Request.Committed (h : Trace) : Request → Prop
  | .send _ _ => ∃ e ∈ h, e.token? = some .notified
  | .arm _ | .receive _ _ => ∃ e ∈ h, e.accepts .rx
  | .finish _ => True
  | .exchange _ _ _ => False

theorem Trace.Unarmed.not_accepts (hu : h.Unarmed) : ¬ ∃ e ∈ h, e.accepts .rx := by
  rintro ⟨e, he, hx⟩
  exact hu.1 e he hx

/-- A request that is cut once its program runs on leaves its transfer cut short. -/
theorem Request.Cut.cutShort (hd : r.side? = some d) (hc : r.Cut m h) (hk : r.Committed h) :
    h.CutShort m d := by
  cases r with
  | send bytes timeout =>
    cases Option.some.inj hd
    obtain ⟨e, he, hx⟩ := hk
    exact SendCut.cutShort hc ⟨e, he, by rw [hx]; rfl⟩
  | arm len => exact (Unarmed.not_accepts hc hk).elim
  | finish timeout =>
    cases Option.some.inj hd
    exact hc
  | receive len timeout =>
    cases Option.some.inj hd
    rcases hc with unarmed | cut
    · exact (unarmed.not_accepts hk).elim
    · exact cut
  | exchange bytes len timeout => exact hk.elim

end Cuts

/-- Cancellation is safe. From every state a run of any operations reaches, a send, an arming, a
wait for an armed receive or a whole receive changes nothing if it is never polled. Dropped at a
wait, it leaves its direction quiet, and whatever engine transfer it started or waited for is
stopped. Without an engine, a wait for a frame and a send that took the bus turn reset their program
once and last; a send that did not take it has only looked for it. -/
theorem cut_leaves_clean (H : Hardware σ) (config : LinkConfig) (hardware : σ)
    (ops : List Operation)
    (hs : ∀ tr ∈ ((Session.start config hardware).run H ops).1.map Prod.snd, tr.Solicited)
    (r : Request) (d : Direction) (hd : r.side? = some d) :
    let s := ((Session.start config hardware).run H ops).2
    s.drive H r.call 0 = ⟨.dropped, s.world, []⟩ ∧
    ∀ polls,
      let o := s.drive H r.call (polls + 1)
      o.value = .dropped → o.trace.Solicited →
        o.world.link.Quiet d ∧ o.trace.Stopped d ∧
        (∀ timeout, r = .finish timeout →
          (s.config.mode = .dma → ∃ e ∈ o.trace, e.stops .rx) ∧
          (s.config.mode = .fifo → o.trace.ResetLast .rx)) ∧
        (∀ bytes timeout, r = .send bytes timeout →
          (∀ e ∈ o.trace, e.looksInVain) ∨
          (∃ e ∈ o.trace, e.token? = some .taken) ∧
            (s.config.mode = .fifo → o.trace.ResetLast .tx)) := by
  intro s
  refine ⟨rfl, ?_⟩
  intro polls o hv ho
  have orderly := orderly_run H config hardware ops
  have after := Call.Ensures.dropped H (kept_orderly.request orderly r) hv
  have cut : r.Cut s.config.mode o.trace := Call.Ensures.dropped H (Request.unwinds hd) hv
  have unarmed : d = .rx → o.world.link.expected = none := by
    rintro rfl
    exact Call.Ensures.dropped (h := []) H (Request.disarms hd orderly.2) hv
  refine ⟨after.quiet ((solicited_flatten hs).append ho) unarmed, cut.stopped hd, ?_, ?_⟩
  · rintro timeout rfl
    refine ⟨fun hm => ?_, fun hm => ?_⟩
    · rw [hm] at cut
      exact cut.2.2
    · rw [hm] at cut
      exact cut.1
  · rintro bytes timeout rfl
    rcases cut with vain | ⟨taken, cut⟩
    · exact .inl vain
    · refine .inr ⟨taken, fun hm => ?_⟩
      rw [hm] at cut
      exact cut.1

/-- The engine never reports on the first receive, and the first delay is never over. -/
def stalled : Bench.Script where
  rx := {
    starts := ⟨[.never], .done⟩
    programCounter := 9
    origin := 5 }
  delays := ⟨[[.stall]], []⟩

/-- A wait for an engine that never reports is dropped. -/
theorem cut_leaves_clean_stalled :
    let s := ((Session.start {} stalled).run Bench.bench [.request (.arm 1) 1]).2
    let o := s.drive Bench.bench (Request.finish 1000).call 1
    o.value = .dropped ∧ o.trace.Solicited ∧ o.world.link.Quiet .rx ∧
      ∃ e ∈ o.trace, e.stops .rx := by
  intro s o
  have value : o.value = .dropped := by decide +kernel
  have solicited : o.trace.Solicited := by decide +kernel
  obtain ⟨quiet, -, halted, -⟩ := (cut_leaves_clean Bench.bench {} stalled
    [.request (.arm 1) 1] (by decide +kernel) (.finish 1000) .rx rfl).2 0 value solicited
  exact ⟨value, solicited, quiet, (halted 1000 rfl).1 rfl⟩

/-- Whether a cut resets the program is a matter of the mode. From any state, a send that is dropped
after its notification, a receive that is dropped after its bit count was taken and a wait for an
armed receive reset their program once and last where there is no engine. Where there is one it is
stopped, and the program is left as it is. -/
theorem cut_resets_without_engine (H : Hardware σ) (s : Session σ) (r : Request) (d : Direction)
    (hd : r.side? = some d) (polls : Nat) :
    let o := s.drive H r.call (polls + 1)
    o.value = .dropped → r.Committed o.trace →
      (s.config.mode = .fifo → o.trace.ResetLast d) ∧
      (s.config.mode = .dma → o.trace.Unreset d ∧ o.trace.Halted d) := by
  intro o hv hk
  have cut : r.Cut s.config.mode o.trace := Call.Ensures.dropped H (Request.unwinds hd) hv
  have short := cut.cutShort hd hk
  refine ⟨fun hm => ?_, fun hm => ?_⟩
  · rw [hm] at short
    exact short.1
  · rw [hm] at short
    exact short

/-- A receive through the FIFO is dropped while it waits for its first word. -/
theorem cut_resets_without_engine_stalled :
    let s : Session Bench.Script := Session.start { mode := .fifo } stalled
    let o := s.drive Bench.bench (Request.receive 1 1000).call 1
    o.value = .dropped ∧ (∃ e ∈ o.trace, e.accepts .rx) ∧ o.trace.ResetLast .rx := by
  intro s o
  have value : o.value = .dropped := by decide +kernel
  have accepted : ∃ e ∈ o.trace, e.accepts .rx := by decide +kernel
  obtain ⟨reset, -⟩ := cut_resets_without_engine Bench.bench s (.receive 1 1000) .rx rfl 0 value
    accepted
  exact ⟨value, accepted, reset rfl⟩

/-- The receive program took a bit count, and the wait for its frame is dropped without a reset. -/
theorem cut_wait_keeps_program :
    let armed := (Session.start {} stalled).run Bench.bench [.request (.arm 1) 1]
    let o := armed.2.drive Bench.bench (Request.finish 1000).call 1
    (∃ tr ∈ armed.1.map Prod.snd, ∃ e ∈ tr, e.accepts .rx) ∧ o.value = .dropped ∧
      ¬ ∃ e ∈ o.trace, e.resets .rx := by
  intro armed o
  exact ⟨by decide +kernel, by decide +kernel, by decide +kernel⟩

end Joybus.Transceiver
