import Joybus.Proofs.Bookkeeping
import Joybus.Proofs.FailedReceives
import Joybus.Proofs.FailedSends
import Joybus.Proofs.Recovery

/-! A failed call leaves clean hardware: its direction is at rest, its engine stopped, its program
reset once and last. -/
namespace Joybus.Transceiver

open Trace

variable {σ : Type} {d : Direction} {l : Link} {h : Trace} {c : LinkConfig}

/-- The one direction a request concerns; an exchange concerns both. -/
def Request.side? : Request → Option Direction
  | .send _ _ => some .tx
  | .arm _ | .finish _ | .receive _ _ => some .rx
  | .exchange _ _ _ => none

/-- The state noted for a direction is idle. -/
def Link.Idle (l : Link) : Direction → Prop
  | .tx => l.tx = .idle
  | .rx => l.rx = .idle

/-- Nothing is under way in direction `d`: it is idle, its cell unused, and no receive armed. -/
structure Link.Quiet (l : Link) (d : Direction) : Prop where
  idle : l.Idle d
  unused : l.status d = .notStarted
  unarmed : d = .rx → l.expected = none

/-- What holds between operations, if only what is asked for is reported. -/
def Orderly (c : LinkConfig) (l : Link) (h : Trace) : Prop := AtRest c l h ∧ Noted l

theorem kept_orderly : Kept Orderly := kept_atRest.and kept_noted

theorem orderly_run (H : Hardware σ) (config : LinkConfig) (hardware : σ) (ops : List Operation) :
    Orderly ((Session.start config hardware).run H ops).2.config
      ((Session.start config hardware).run H ops).2.world.link
      (((Session.start config hardware).run H ops).1.map Prod.snd).flatten :=
  kept_orderly.run H (s := Session.start config hardware) (h := [])
    ⟨atRest_start config hardware, noted_of_idle rfl⟩ ops

/-- Between operations a direction is quiet, the receive side if no receive is armed. -/
theorem Orderly.quiet (ho : Orderly c l h) (hs : h.Solicited)
    (he : d = .rx → l.expected = none) : l.Quiet d := by
  obtain ⟨rest, noted⟩ := ho
  have ready := rest.ready hs
  cases d with
  | tx => exact ⟨ready.tx, ready.sent, he⟩
  | rx =>
    have none := he rfl
    exact ⟨noted.idle (.inl none), ready.received (not_receiving_of_none none), he⟩

/-- What a request that is cut leaves in its trace, in a mode. -/
def Request.Cut (m : TransferMode) (h : Trace) : Request → Prop
  | .send _ _ => h.SendCut m
  | .arm _ => h.Unarmed
  | .finish _ => h.CutShort m .rx
  | .receive _ _ => h.Unarmed ∨ h.CutShort m .rx
  | .exchange _ _ _ => True

/-- How a request of one direction leaves the hardware when it fails or is cut. -/
theorem Request.unwinds {r : Request} (hd : r.side? = some d) :
    (r.call c).Ensures
      (fun reply _ h => reply.Failed → h.ResetLast d ∧ h.Stopped d ∧
        ∀ timeout, r = .finish timeout → c.mode = .dma → ∃ e ∈ h, e.stops d)
      (fun _ h => r.Cut c.mode h) l [] := by
  cases r with
  | send bytes timeout =>
    cases Option.some.inj hd
    rw [Request.call, Call.ensures_map]
    refine (send_unwinds c bytes timeout (by simp)).mono ?_ fun _ _ hc => hc
    intro r l h failed hf
    obtain ⟨hr, hs⟩ := failed hf
    exact ⟨hr, hs, by simp⟩
  | arm len =>
    cases Option.some.inj hd
    rw [Request.call, Call.ensures_map]
    refine (armReceive_unwinds c len unarmed_nil).mono ?_ fun _ _ hc => hc
    rintro r l h ⟨failed, -⟩ hf
    obtain ⟨hr, hs⟩ := failed hf
    exact ⟨hr, hs, by simp⟩
  | finish timeout =>
    cases Option.some.inj hd
    rw [Request.call, Call.ensures_map]
    have fresh : Receivable c.mode [] := ⟨unreset_nil, fun _ => stopped_nil⟩
    refine (finishReceive_unwinds c timeout fresh).mono ?_ fun _ _ hc => hc
    intro r l h failed hf
    obtain ⟨hr, hs, halted⟩ := failed hf
    exact ⟨hr, hs, fun _ _ => halted⟩
  | receive len timeout =>
    cases Option.some.inj hd
    rw [Request.call, Call.ensures_map]
    refine (receive_unwinds c len timeout unarmed_nil).mono ?_ fun _ _ hc => hc
    intro r l h failed hf
    obtain ⟨hr, hs⟩ := failed hf
    exact ⟨hr, hs, by simp⟩
  | exchange bytes len timeout => simp [Request.side?] at hd

/-- A request of the receive side that fails or is cut leaves no receive armed. -/
theorem Request.disarms {r : Request} (hr : r.side? = some .rx) (hn : Noted l) :
    (r.call c).Ensures (fun reply l _ => reply.Failed → l.expected = none)
      (fun l _ => l.expected = none) l h := by
  cases r with
  | arm len =>
    rw [Request.call, Call.ensures_map]
    exact (armReceive_notes c len hn).mono (fun _ _ _ hl => hl.2.2) fun _ _ hl => hl.1
  | finish timeout =>
    rw [Request.call, Call.ensures_map]
    exact (finishReceive_notes c timeout hn).mono (fun _ _ _ hl _ => hl.1) fun _ _ hl => hl.1
  | receive len timeout =>
    rw [Request.call, Call.ensures_map]
    exact (receive_notes c len timeout hn).mono (fun _ _ _ hl => hl) fun _ _ hl => hl.1
  | send bytes timeout | exchange bytes len timeout => simp [Request.side?] at hr

/-- A failed call leaves clean hardware. From every state a run of any operations reaches, a send,
an arming, a wait for an armed receive or a whole receive that comes back with a timeout or a fault
leaves its direction quiet. Whatever engine transfer it started is stopped after its start, and so
is the one it waited for, and its program is reset once and not used after that. -/
theorem failure_leaves_clean (H : Hardware σ) (config : LinkConfig) (hardware : σ)
    (ops : List Operation)
    (hs : ∀ tr ∈ ((Session.start config hardware).run H ops).1.map Prod.snd, tr.Solicited)
    (r : Request) (d : Direction) (hd : r.side? = some d) (polls : Nat) :
    let s := ((Session.start config hardware).run H ops).2
    let o := s.drive H r.call polls
    ∀ reply left, o.value = .finished reply left → reply.Failed → o.trace.Solicited →
      o.world.link.Quiet d ∧ o.trace.Stopped d ∧
      (∀ timeout, r = .finish timeout → s.config.mode = .dma → ∃ e ∈ o.trace, e.stops d) ∧
      o.trace.ResetLast d := by
  intro s o reply left hv hf ho
  have orderly := orderly_run H config hardware ops
  have after := Call.Ensures.finished H (kept_orderly.request orderly r) hv
  obtain ⟨reset, stopped, halted⟩ := Call.Ensures.finished H (Request.unwinds hd) hv hf
  have unarmed : d = .rx → o.world.link.expected = none := by
    rintro rfl
    exact Call.Ensures.finished (h := []) H (Request.disarms hd orderly.2) hv hf
  exact ⟨after.quiet ((solicited_flatten hs).append ho) unarmed, stopped, halted, reset⟩

/-- The engine of an armed receive never reports, and the wait for it is over at once. -/
theorem failure_leaves_clean_overdue :
    let s := ((Session.start {} unlucky).run prompt [.request (.arm 2) 1]).2
    let o := s.drive prompt (Request.finish 10).call 1
    o.value = .finished (.received (.error .timedOut)) 1 ∧ o.trace.Solicited ∧
      o.world.link.Quiet .rx ∧ o.trace.ResetLast .rx ∧ ∃ e ∈ o.trace, e.stops .rx := by
  intro s o
  have value : o.value = .finished (.received (.error .timedOut)) 1 := by decide +kernel
  have solicited : o.trace.Solicited := by decide +kernel
  obtain ⟨quiet, -, halted, reset⟩ := failure_leaves_clean prompt {} unlucky
    [.request (.arm 2) 1] (by decide +kernel) (.finish 10) .rx rfl 1 _ _ value trivial solicited
  exact ⟨value, solicited, quiet, reset, halted 10 rfl rfl⟩

end Joybus.Transceiver
