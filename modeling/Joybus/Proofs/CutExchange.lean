import Joybus.Proofs.Cancellation

/-! Exchanges that are dropped: while they arm or wait the receive is undone, but an exchange that
is dropped while it sends leaves its receive armed. -/
namespace Joybus.Transceiver

open Trace

variable {σ α β : Type} {l : Link} {h : Trace} {c : LinkConfig}

section Sequencing
variable (H : Hardware σ) {w : World σ}

/-- Goes on where a call has ended, with the polls that it left. -/
def Outcome.resume (f : α → Call β) (o : Outcome σ (Ending α)) : Outcome σ (Ending β) :=
  match o.value with
  | .finished a left => ((f a).drive H o.world left).after o.trace
  | .dropped => o.map fun _ => .dropped

theorem Outcome.resume_after (f : α → Call β) (o : Outcome σ (Ending α)) (earlier : Trace) :
    (o.after earlier).resume H f = (o.resume H f).after earlier := by
  unfold Outcome.resume
  cases o with
  | mk value w trace => cases value <;> simp [Outcome.after, Outcome.map]

theorem Pause.poll_bind (p : Pause α) (f : α → Call β) (w : World σ) :
    (p.bind f).poll H w =
      match (p.poll H w).value with
      | .finished a => ((f a).advance H (p.poll H w).world).after (p.poll H w).trace
      | .paused q => (p.poll H w).map fun _ => .paused (q.bind f) := by
  unfold Pause.poll
  cases hv : (H.revisit w p.wait).value with
  | none => simp [Pause.bind, hv, Outcome.map]
  | some x =>
    simp only [Pause.bind, hv, Call.advance_bind, Outcome.after]
    split <;> simp_all [Outcome.map]

theorem Pause.drive_bind (p : Pause α) (f : α → Call β) (polls : Nat) (w : World σ) :
    (p.bind f).drive H polls w = (p.drive H polls w).resume H f := by
  induction polls generalizing p w with
  | zero => rfl
  | succ polls ih =>
    simp only [Pause.drive, Pause.poll_bind]
    cases hv : (p.poll H w).value with
    | finished a =>
      simp only [Outcome.resume, Outcome.map, Call.drive]
      cases hn : ((f a).advance H (p.poll H w).world).value <;> simp [Outcome.after, hn]
    | paused q => simp only [Outcome.map, ih, Outcome.resume_after]

/-- A call followed by another is driven until the first ends, and then the second is driven with
the polls that are left. -/
theorem Call.drive_bind (call : Call α) (f : α → Call β) (w : World σ) (polls : Nat) :
    (call >>= f).drive H w polls = (call.drive H w polls).resume H f := by
  cases polls with
  | zero => rfl
  | succ polls =>
    simp only [Call.drive, Call.advance_bind]
    cases hv : (call.advance H w).value with
    | finished a =>
      simp only [Outcome.resume, Outcome.map, Call.drive]
      cases hn : ((f a).advance H (call.advance H w).world).value <;> simp [Outcome.after, hn]
    | paused p => simp only [Outcome.map, Pause.drive_bind, Outcome.resume_after]

theorem Pause.left_pos {p : Pause α} {polls left : Nat} {a : α}
    (hv : (p.drive H polls w).value = .finished a left) : 0 < left := by
  induction polls generalizing p w with
  | zero => simp [Pause.drive, Outcome.map] at hv
  | succ polls ih =>
    rw [Pause.drive] at hv
    cases hp : (p.poll H w).value with
    | finished b =>
      simp only [hp, Outcome.map, Ending.finished.injEq] at hv
      omega
    | paused q =>
      simp only [hp] at hv
      exact ih hv

/-- A call that ends by itself ends within a poll. -/
theorem Call.left_pos {call : Call α} {polls left : Nat} {a : α}
    (hv : (call.drive H w polls).value = .finished a left) : 0 < left := by
  cases polls with
  | zero => simp [Call.drive] at hv
  | succ polls =>
    rw [Call.drive] at hv
    cases hp : (call.advance H w).value with
    | finished b =>
      simp only [hp, Outcome.map, Ending.finished.injEq] at hv
      omega
    | paused p =>
      simp only [hp] at hv
      exact Pause.left_pos H hv

/-- Of two calls in sequence that are dropped, the first is dropped, or it ended and the second is
dropped. -/
theorem Call.dropped_bind {call : Call α} {f : α → Call β} {polls : Nat}
    (hv : ((call >>= f).drive H w polls).value = .dropped) :
    ((call.drive H w polls).value = .dropped ∧
      (call >>= f).drive H w polls = (call.drive H w polls).map fun _ => .dropped) ∨
    ∃ a left, (call.drive H w polls).value = .finished a (left + 1) ∧
      ((f a).drive H (call.drive H w polls).world (left + 1)).value = .dropped ∧
      (call >>= f).drive H w polls =
        ((f a).drive H (call.drive H w polls).world (left + 1)).after
          (call.drive H w polls).trace := by
  rw [Call.drive_bind] at hv ⊢
  cases ho : (call.drive H w polls).value with
  | dropped => exact .inl ⟨rfl, by simp [Outcome.resume, ho]⟩
  | finished a left =>
    have pos := Call.left_pos H ho
    obtain ⟨left, rfl⟩ := Nat.exists_eq_add_of_lt pos
    simp only [Outcome.resume, ho, Nat.zero_add] at hv ⊢
    exact .inr ⟨a, left, rfl, hv, rfl⟩

theorem Call.pure_not_dropped (a : α) (polls : Nat) :
    ((pure a : Call α).drive H w (polls + 1)).value ≠ .dropped := by
  simp [Call.drive, Call.advance, Outcome.map]

end Sequencing

section Phases
variable (H : Hardware σ) {w : World σ} {bytes : List Byte} {len timeout polls : Nat}

/-- An exchange is dropped while it arms its receive, while it sends, or while it waits for the
response. -/
theorem exchange_dropped
    (hv : ((exchange c bytes len timeout).drive H w (polls + 1)).value = .dropped) :
    let o := (exchange c bytes len timeout).drive H w (polls + 1)
    let a := (armReceive c len).drive H w (polls + 1)
    (a.value = .dropped ∧ o.world = a.world ∧ o.trace = a.trace) ∨
    ∃ left, a.value = .finished (.ok ()) (left + 1) ∧
      let b := (send c bytes timeout).drive H a.world (left + 1)
      (b.value = .dropped ∧ o.world = b.world ∧ o.trace = a.trace ++ b.trace) ∨
      ∃ more, b.value = .finished (.ok ()) (more + 1) ∧
        let f := (finishReceive c timeout).drive H b.world (more + 1)
        f.value = .dropped ∧ o.world = f.world ∧ o.trace = a.trace ++ (b.trace ++ f.trace) := by
  intro o a
  have fits : ¬ c.maxFrameBytes < bytes.length := by
    intro long
    rw [exchange, if_pos long] at hv
    exact Call.pure_not_dropped H _ _ hv
  have ho : o = (exchange c bytes len timeout).drive H w (polls + 1) := rfl
  rw [exchange, if_neg fits] at hv ho
  rcases Call.dropped_bind H hv with ⟨arming, eq⟩ | ⟨r, left, armed, hv, eq⟩
  · rw [eq] at ho
    exact .inl ⟨arming, by rw [ho]; rfl, by rw [ho]; rfl⟩
  cases r with
  | error e => exact (Call.pure_not_dropped H _ _ hv).elim
  | ok =>
    refine .inr ⟨left, armed, ?_⟩
    intro b
    rw [eq] at ho
    rcases Call.dropped_bind H hv with ⟨sending, eq⟩ | ⟨r, more, sent, hv, eq⟩
    · rw [eq] at ho
      exact .inl ⟨sending, by rw [ho]; rfl, by rw [ho]; rfl⟩
    cases r with
    | error e =>
      -- Cancelling a receive never waits, so an exchange cannot be dropped there.
      have cancelled : (do cancelReceive c; pure (.error (.tx e)) :
          Call (Except ExchangeError Frame)).Ensures (fun _ _ _ => True) (fun _ _ => False)
          b.world.link [] := by
        rw [Call.ensures_bind]
        exact (cancelReceive_clears c).mono (fun _ _ _ _ => trivial) fun _ _ hn => hn
      exact (Call.Ensures.dropped H cancelled hv).elim
    | ok =>
      refine .inr ⟨more, sent, ?_⟩
      intro f
      rw [eq] at ho
      rcases Call.dropped_bind H hv with ⟨waiting, eq⟩ | ⟨r, _, _, hv, _⟩
      · rw [eq] at ho
        exact ⟨waiting, by rw [ho]; rfl, by rw [ho]; rfl⟩
      · cases r <;> exact (Call.pure_not_dropped H _ _ hv).elim

/-- An exchange is cut while it sends: its receive is armed, and its send is dropped. -/
def Session.CutSending (H : Hardware σ) (s : Session σ) (bytes : List Byte)
    (len timeout polls : Nat) : Prop :=
  let a := s.drive H (armReceive · len) polls
  ∃ left, a.value = .finished (.ok ()) left ∧
    ((send s.config bytes timeout).drive H a.world left).value = .dropped

instance (s : Session σ) : Decidable (s.CutSending H bytes len timeout polls) :=
  match ha : (s.drive H (armReceive · len) polls).value with
  | .finished (.ok ()) left =>
    match hb : ((send s.config bytes timeout).drive H
        (s.drive H (armReceive · len) polls).world left).value with
    | .dropped => .isTrue ⟨left, ha, hb⟩
    | .finished _ _ => .isFalse fun ⟨_, armed, sending⟩ => by
      cases ha.symm.trans armed
      cases hb.symm.trans sending
  | .finished (.error _) _ => .isFalse fun ⟨_, armed, _⟩ => nomatch ha.symm.trans armed
  | .dropped => .isFalse fun ⟨_, armed, _⟩ => nomatch ha.symm.trans armed

theorem aloof_of_tx (a : Action) (ha : a.side = .tx) : a.Aloof .rx := by
  cases a with
  | command c =>
    cases c <;> simp_all [Action.side, Command.side]
  | _ => simp

/-- A send leaves an armed receive as it is. -/
theorem send_spares (c : LinkConfig) (bytes : List Byte) (timeout : Nat) {n : Option Nat}
    (he : l.expected = n) (hp : h.Receivable c.mode) :
    (send c bytes timeout).Ensures (fun _ l h => l.expected = n ∧ h.Receivable c.mode)
      (fun l h => l.expected = n ∧ h.Receivable c.mode) l h :=
  ((keeps_expected n).both (keeps_receivable c.mode)).onSide (send_onSide c bytes timeout)
    (fun a ha => ⟨not_setExpected_of_tx a ha, aloof_of_tx a ha⟩) trivial ⟨he, hp⟩

/-- An exchange that is dropped leaves its receive armed if it is cut while it sends, and otherwise
none, with what it started stopped. -/
theorem exchange_cut {s : Session σ} (hn : Noted s.world.link) (he : s.world.link.expected = none)
    (hv : (s.drive H (exchange · bytes len timeout) polls).value = .dropped) :
    let o := s.drive H (exchange · bytes len timeout) polls
    (¬ s.CutSending H bytes len timeout polls ∧ o.world.link.expected = none ∧
      o.trace.Stopped .rx) ∨
    (s.CutSending H bytes len timeout polls ∧ o.world.link.expected = some len) := by
  intro o
  cases polls with
  | zero =>
    refine .inl ⟨?_, he, stopped_nil⟩
    rintro ⟨left, armed, -⟩
    cases armed
  | succ polls =>
    have arm := (armReceive_unwinds (l := s.world.link) s.config len unarmed_nil).and
      (armReceive_notes s.config len hn)
    rcases exchange_dropped H hv with ⟨arming, hw, ht⟩ | ⟨left, armed, rest⟩
    · obtain ⟨unarmed, he, -⟩ := Call.Ensures.dropped H arm arming
      refine .inl ⟨?_, ?_, ?_⟩
      · rintro ⟨left, armed, -⟩
        cases arming.symm.trans armed
      · exact (congrArg (·.link.expected) hw).trans he
      · exact (congrArg (Stopped .rx) ht).mpr unarmed.2.2
    · obtain ⟨⟨-, ready⟩, noted, he, -⟩ := Call.Ensures.finished H arm armed
      -- The send works on its own side alone: the receive stays armed for as long as it lasts.
      have sends := (send_spares s.config bytes timeout (he rfl) (ready rfl)).and
        (kept_noted.send s.config bytes timeout _ _ noted)
      rcases rest with ⟨sending, hw, ht⟩ | ⟨more, sent, waiting, hw, ht⟩
      · obtain ⟨⟨he, -⟩, -⟩ := Call.Ensures.dropped H sends sending
        exact .inr ⟨⟨_, armed, sending⟩, (congrArg (·.link.expected) hw).trans he⟩
      · obtain ⟨⟨-, ready⟩, noted⟩ := Call.Ensures.finished H sends sent
        have waits := (finishReceive_unwinds s.config timeout ready).and
          (finishReceive_notes s.config timeout noted)
        obtain ⟨cut, he, -⟩ := Call.Ensures.dropped H waits waiting
        refine .inl ⟨?_, ?_, ?_⟩
        · rintro ⟨left, armed', sending⟩
          cases armed.symm.trans armed'
          cases sending.symm.trans sent
        · exact (congrArg (·.link.expected) hw).trans he
        · refine (congrArg (Stopped .rx) ht).mpr ?_
          simpa using cut.stopped

end Phases

section Refusals
variable {bytes : List Byte} {len timeout : Nat}

/-- While a receive is armed no other is. -/
theorem armReceive_busy {n : Nat} (he : l.expected = some n) (hl : len ≤ c.maxFrameBytes) :
    (armReceive c len).Ensures (fun r _ _ => r = .error .busy) (fun _ _ => False) l h := by
  rw [armReceive, if_neg (by omega), Call.ensures_bind, Call.ensures_expected, Action.Ensures, he]
  exact rfl

theorem exchange_busy {n : Nat} (he : l.expected = some n) (hb : bytes.length ≤ c.maxFrameBytes)
    (hl : len ≤ c.maxFrameBytes) :
    (exchange c bytes len timeout).Ensures (fun r _ _ => r = .error (.rx .busy))
      (fun _ _ => False) l h := by
  rw [exchange, if_neg (by omega), Call.ensures_bind]
  refine (armReceive_busy he hl).imp ?_
  rintro _ l h rfl
  exact rfl

/-- From a ready state without an armed receive an exchange is not refused. -/
theorem exchange_not_busy (bytes : List Byte) (len timeout : Nat) (hr : Ready c l)
    (he : l.expected = none) :
    (exchange c bytes len timeout).Ensures
      (fun r _ h => h.Toward Solicited → r ≠ .error (.rx .busy) ∧ r ≠ .error (.tx .busy))
      (fun _ _ => True) l [] := by
  unfold exchange
  split
  · simp [Call.pure_eq]
  have idle := (keeps_tx .idle).onSide (h := []) (armReceive_onSide c len) not_setTx_of_rx trivial
    hr.tx
  have unused := (keeps_unused (d := .tx)).avoiding.other (h := []) (armReceive_onSide c len)
    fun _ => hr.sent
  have arm := armReceive_not_busy (h := []) c len he (hr.received (not_receiving_of_none he))
  rw [Call.ensures_bind]
  refine (arm.and (idle.and unused)).mono ?_ fun _ _ _ => trivial
  rintro r l h ⟨armed, idle, unused⟩
  cases r with
  | error e =>
    intro _
    refine ⟨?_, by simp⟩
    intro hb
    cases hb
    exact armed rfl
  | ok =>
    refine Call.ensures_hopeful fun hopeful => ?_
    have sent := unused (hopeful.solicited fun _ hs => hs)
    rw [Call.ensures_bind]
    refine (send_not_busy c bytes timeout idle sent).mono ?_ fun _ _ _ => trivial
    intro r l h not_busy
    cases r with
    | error e =>
      have failed : ∀ r : Except ExchangeError Frame, r = .error (.tx e) →
          r ≠ .error (.rx .busy) ∧ r ≠ .error (.tx .busy) := by
        rintro _ rfl
        simpa using not_busy
      have yields : (do cancelReceive c; pure (.error (.tx e)) :
          Call (Except ExchangeError Frame)).Yields (· = .error (.tx e)) :=
        Call.yields_then fun _ => Call.yields_pure rfl
      exact yields.ensures.imp fun r _ _ hr _ => failed r hr
    | ok =>
      rw [Call.ensures_bind]
      refine (finishReceive_not_busy c timeout).ensures.imp ?_
      intro r l h not_busy
      cases r with
      | error e => simpa using fun _ => not_busy
      | ok frame => simp [Call.pure_eq]

end Refusals

/-- An exchange that is dropped leaves no receive armed unless it is dropped while it sends. From
every state without an armed receive that a run of any operations reaches: otherwise the receive
side is quiet, what was started there is stopped, and neither an arming nor an exchange that follows
is refused. An exchange that is dropped while it sends leaves its receive armed, and each of them is
refused. -/
theorem cut_exchange_disarms_unless_sending (H : Hardware σ) (config : LinkConfig) (hardware : σ)
    (ops : List Operation)
    (hs : ∀ tr ∈ ((Session.start config hardware).run H ops).1.map Prod.snd, tr.Solicited)
    (bytes : List Byte) (len timeout polls : Nat) :
    let s := ((Session.start config hardware).run H ops).2
    let o := s.drive H (exchange · bytes len timeout) polls
    let next : Session σ := { s with world := o.world }
    s.world.link.expected = none → o.value = .dropped → o.trace.Solicited →
      (¬ s.CutSending H bytes len timeout polls →
        o.world.link.Quiet .rx ∧ o.trace.Stopped .rx ∧
        (∀ len k left, (next.drive H (armReceive · len) k).value ≠ .finished (.error .busy) left) ∧
        (∀ bytes len timeout k left,
          let x := next.drive H (exchange · bytes len timeout) k
          x.trace.Solicited → x.value ≠ .finished (.error (.rx .busy)) left ∧
            x.value ≠ .finished (.error (.tx .busy)) left)) ∧
      (s.CutSending H bytes len timeout polls →
        o.world.link.expected = some len ∧
        (∀ len k, len ≤ s.config.maxFrameBytes →
          (next.drive H (armReceive · len) (k + 1)).value = .finished (.error .busy) (k + 1)) ∧
        (∀ bytes len timeout k, bytes.length ≤ s.config.maxFrameBytes →
          len ≤ s.config.maxFrameBytes →
          (next.drive H (exchange · bytes len timeout) (k + 1)).value =
            .finished (.error (.rx .busy)) (k + 1))) := by
  intro s o next hn hv ho
  have orderly := orderly_run H config hardware ops
  have after : Orderly s.config o.world.link _ :=
    Call.Ensures.keeps H (kept_orderly.exchange orderly bytes len timeout) orderly polls
  have solicited := (solicited_flatten hs).append ho
  rcases exchange_cut H orderly.2 hn hv with ⟨whole, he, stopped⟩ | ⟨cut, he⟩
  · refine ⟨fun _ => ?_, fun cut => (whole cut).elim⟩
    have quiet : o.world.link.Quiet .rx := after.quiet solicited fun _ => he
    refine ⟨quiet, stopped, ?_, ?_⟩
    · intro len k left refused
      exact Call.Ensures.finished (h := []) H
        (armReceive_not_busy s.config len he quiet.unused) refused rfl
    · intro bytes len timeout k left x hx
      have not_busy := exchange_not_busy bytes len timeout (after.1.ready solicited) he
      refine ⟨fun refused => ?_, fun refused => ?_⟩
      · exact (Call.Ensures.finished H not_busy refused (.self hx)).1 rfl
      · exact (Call.Ensures.finished H not_busy refused (.self hx)).2 rfl
  · refine ⟨fun whole => (whole cut).elim, fun _ => ⟨he, ?_, ?_⟩⟩
    · intro len k hl
      obtain ⟨_, value, rfl⟩ := Call.Ensures.at_once (h := []) H
        (armReceive_busy he hl) k
      exact value
    · intro bytes len timeout k hb hl
      obtain ⟨_, value, rfl⟩ := Call.Ensures.at_once (h := []) H
        (exchange_busy he hb hl) k
      exact value

/-- An exchange is dropped while it waits for a response that never comes. -/
theorem cut_exchange_disarms_unless_sending_stalled :
    let s := ((Session.start {} stalled).run Bench.bench [.request (.send [0x02] 10) 1]).2
    let o := s.drive Bench.bench (exchange · [0x01] 1 1000) 1
    s.world.link.expected = none ∧ o.value = .dropped ∧ o.trace.Solicited ∧
      ¬ s.CutSending Bench.bench [0x01] 1 1000 1 ∧ o.world.link.Quiet .rx := by
  intro s o
  have unarmed : s.world.link.expected = none := by decide +kernel
  have value : o.value = .dropped := by decide +kernel
  have solicited : o.trace.Solicited := by decide +kernel
  have waiting : ¬ s.CutSending Bench.bench [0x01] 1 1000 1 := by decide +kernel
  obtain ⟨whole, -⟩ := cut_exchange_disarms_unless_sending Bench.bench {} stalled
    [.request (.send [0x02] 10) 1] (by decide +kernel) [0x01] 1 1000 1 unarmed value solicited
  exact ⟨unarmed, value, solicited, waiting, (whole waiting).1⟩

/-- The bus turn never comes, and neither does a report on the first receive. -/
def silent : Bench.Script where
  tx := {
    flags := ⟨[], false⟩
    programCounter := 7
    origin := 3 }
  rx := {
    starts := ⟨[.never], .done⟩
    programCounter := 9
    origin := 5 }
  delays := ⟨[[.stall]], []⟩

/-- An exchange that is dropped while it waits for the bus turn leaves its receive armed and its
engine running, and the next arming is refused. -/
theorem cut_exchange_leaves_armed :
    let s : Session Bench.Script := Session.start {} silent
    let o := s.drive Bench.bench (exchange · [0x01] 1 1000) 1
    let next : Session Bench.Script := { s with world := o.world }
    o.value = .dropped ∧ o.trace.Solicited ∧ o.world.link.expected = some 1 ∧
      o.world.link.rx = .armed ∧ o.world.link.status .rx = .pending ∧
      (¬ ∃ e ∈ o.trace, e.stops .rx) ∧
      (next.drive Bench.bench (armReceive · 1) 1).value = .finished (.error .busy) 1 := by
  intro s o next
  exact ⟨by decide +kernel, by decide +kernel, by decide +kernel, by decide +kernel,
    by decide +kernel, by decide +kernel, by decide +kernel⟩

end Joybus.Transceiver
