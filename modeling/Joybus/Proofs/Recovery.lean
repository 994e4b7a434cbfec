import Joybus.Proofs.Receiving
import Joybus.Proofs.Refusals
import Joybus.Proofs.Sending

/-! No state is a dead end: whatever happened before, a send that the hardware answers succeeds, and
so does a receive once the one before it is cancelled. -/
namespace Joybus.Transceiver

variable {α β σ : Type} {l : Link} {h : Trace} {c : LinkConfig}

theorem send_not_busy (c : LinkConfig) (bytes : List Byte) (timeout : Nat)
    (hl : l.tx = .idle) (hs : l.status .tx = .notStarted) :
    (send c bytes timeout).Ensures (fun r _ _ => r ≠ .error .busy) (fun _ _ => True) l h := by
  refine (send_refused c bytes timeout h.readsSince_refl).imp ?_
  rintro _ _ _ refused rfl
  exact (refused rfl).2 rfl ⟨hl, hs⟩

theorem armReceive_not_busy (c : LinkConfig) (len : Nat) (he : l.expected = none)
    (hs : l.status .rx = .notStarted) :
    (armReceive c len).Ensures (fun r _ _ => r ≠ .error .busy) (fun _ _ => True) l h := by
  refine (armReceive_refused c len h.readsSince_refl).imp ?_
  rintro _ _ _ refused rfl
  exact (refused rfl).2 rfl ⟨he, hs⟩

theorem finishReceive_not_busy (c : LinkConfig) (timeout : Nat) :
    (finishReceive c timeout).Yields (· ≠ .error .busy) := by
  have busy {r : Except RxError Frame} (hr : ¬ Refused RxError.retryable r) :
      r ≠ .error .busy := by
    rintro rfl
    exact hr rfl
  refine Call.yields_then ?_
  intro expected
  cases expected with
  | none => exact Call.yields_pure (by simp)
  | some len =>
    refine Call.yields_then fun _ => ?_
    split
    · exact Call.yields_pure (by simp)
    cases hm : c.mode with
    | dma => exact (finishDma_unrefused c len timeout).mono fun _ => busy
    | fifo => exact (finishFifo_unrefused c len timeout).mono fun _ => busy

theorem cancelReceive_clears (c : LinkConfig) :
    (cancelReceive c).Ensures (fun _ l _ => l.expected = none) (fun _ _ => False) l h := by
  have reset : ∀ {l h}, l.expected = none →
      (do Call.reset .rx; Call.setRx .idle : Call Unit).Ensures (fun _ l _ => l.expected = none)
        (fun _ _ => False) l h := by
    intro l h he
    refine (keeps_expected none).perform (by simp) he fun _ l h he => ?_
    exact he
  rw [cancelReceive, Call.ensures_bind, Call.ensures_expected, Action.Ensures]
  cases he : l.expected with
  | none => exact he
  | some len =>
    have cleared : ∀ x, ((Action.setExpected none).effect x l).expected = none := fun _ => rfl
    cases hm : c.mode with
    | fifo =>
      refine reach_internal (P := fun l _ => l.expected = none) (by simp) cleared fun _ l h he => ?_
      exact reset he
    | dma =>
      refine reach_internal (P := fun l _ => l.expected = none) (by simp) cleared fun _ l h he => ?_
      rw [Call.ensures_bind, Call.ensures_performAll]
      refine ((keeps_expected none).all (by simp) he).mono ?_
      intro l h he
      exact reset he

theorem maxFrameBytes_le (c : LinkConfig) : c.maxFrameBytes ≤ 32 := by
  unfold LinkConfig.maxFrameBytes
  cases c.mode <;> decide

theorem wordCount_le (p : Packing) (len : Nat) : p.wordCount len ≤ len := by
  cases p <;> simp only [Packing.wordCount, Packing.bytesPerWord] <;> omega

theorem encode_eq_ok (c : LinkConfig) {bytes : List Byte} (hb : bytes ≠ [])
    (hl : bytes.length ≤ c.maxFrameBytes) : WordStream.encode bytes c.maxFrameBytes =
      .ok (WordStream.header bytes.length :: WordStream.payload bytes) := by
  have hc := maxFrameBytes_le c
  rw [WordStream.encode, if_neg (by simp only [Frame.capacity]; omega), if_neg (by simpa using hb)]

section Ready
variable {w : World σ} {H : Hardware σ}

/-- From a ready state a send is never refused, and succeeds if the hardware answers. -/
theorem Ready.send (hr : Ready c w.link) (ht : H.Timely) {bytes : List Byte} (hb : bytes ≠ [])
    (hl : bytes.length ≤ c.maxFrameBytes) (timeout : Nat) :
    ∃ words o, WordStream.encode bytes c.maxFrameBytes = .ok words ∧
      (Transceiver.send c bytes timeout).Returns H w o ∧ o.value ≠ .error .busy ∧
      (o.trace.SendAnswered c words.length timeout →
        o.value = .ok () ∧ o.trace.handed .tx = words) := by
  have he := encode_eq_ok c hb hl
  obtain ⟨o, ho⟩ := ht.returns (Transceiver.send c bytes timeout) w
  have unsent : Unsent w.link [] := ⟨fun _ => ⟨hr.sent, by simp [Trace.Unreported]⟩, rfl, rfl⟩
  have answered := ho.ensured (send_answered c bytes timeout he (by simp) hr.tx unsent rfl)
  refine ⟨_, o, he, ho, ho.ensured (send_not_busy (h := []) c bytes timeout hr.tx hr.sent), ?_⟩
  intro ha
  exact answered (.self ha)

/-- From a ready state without an armed receive a receive is never refused, and succeeds if the
hardware answers. -/
theorem Ready.receive (hr : Ready c w.link) (he : w.link.expected = none) (ht : H.Timely)
    {len : Nat} (h1 : 1 ≤ len) (hl : len ≤ c.maxFrameBytes) (timeout : Nat) :
    ∃ o, (Transceiver.receive c len timeout).Returns H w o ∧ o.value ≠ .error .busy ∧
      (o.trace.ReceiveAnswered c len timeout →
        o.value = .ok (c.packing.decodeFrame o.trace.delivered len)) := by
  have hc : c.packing.wordCount len ≤ rxCapacity :=
    Nat.le_trans (wordCount_le _ _) (Nat.le_trans hl (maxFrameBytes_le c))
  have hs : w.link.status .rx = .notStarted := hr.received (not_receiving_of_none he)
  have unreceived : Unreceived w.link [] :=
    ⟨fun _ => ⟨hs, by simp [Trace.Unreported]⟩, rfl, rfl, rfl⟩
  have answered := receive_answered timeout he unreceived (by omega) hl hc
  have not_busy : (Transceiver.receive c len timeout).Ensures (fun r _ _ => r ≠ .error .busy)
      (fun _ _ => True) w.link [] := by
    rw [Transceiver.receive, Call.ensures_bind]
    refine (armReceive_not_busy c len he hs).imp ?_
    intro r l h hn
    cases r with
    | error e =>
      intro he
      exact hn (congrArg _ (Except.error.inj he))
    | ok => exact (finishReceive_not_busy c timeout).ensures
  obtain ⟨o, ho⟩ := ht.returns (Transceiver.receive c len timeout) w
  refine ⟨o, ho, ho.ensured not_busy, ?_⟩
  intro ha
  exact (ho.ensured answered (.self ha)).1

/-- No state that a run of any operations reaches is a dead end. A send of any frame returns, is
never refused as busy, and if the transmit hardware answers it succeeds and hands over the frame's
word stream. Once a receive that may be armed is cancelled, the same holds of a receive, which gives
the frame in the words delivered. -/
theorem recoverable (H : Hardware σ) (ht : H.Timely) (config : LinkConfig) (hardware : σ)
    (ops : List Operation)
    (hs : ∀ tr ∈ ((Session.start config hardware).run H ops).1.map Prod.snd, tr.Solicited) :
    let s := ((Session.start config hardware).run H ops).2
    (∀ bytes timeout, bytes ≠ [] → bytes.length ≤ s.config.maxFrameBytes →
      ∃ words o, WordStream.encode bytes s.config.maxFrameBytes = .ok words ∧
        (send s.config bytes timeout).Returns H s.world o ∧ o.value ≠ .error .busy ∧
        (o.trace.SendAnswered s.config words.length timeout →
          o.value = .ok () ∧ o.trace.handed .tx = words)) ∧
    (∀ len timeout, 1 ≤ len → len ≤ s.config.maxFrameBytes →
      (s.step H .cancel).2.2.Solicited →
      ∃ o, (receive s.config len timeout).Returns H (s.step H .cancel).2.1.world o ∧
        o.value ≠ .error .busy ∧
        (o.trace.ReceiveAnswered s.config len timeout →
          o.value = .ok (s.config.packing.decodeFrame o.trace.delivered len))) := by
  intro s
  have rest := kept_atRest.run H (s := Session.start config hardware)
    (atRest_start config hardware) ops
  have run := solicited_flatten hs
  refine ⟨?_, ?_⟩
  · intro bytes timeout hb hl
    exact (rest.ready run).send ht hb hl timeout
  · intro len timeout h1 hl hc
    have ready := (kept_atRest.step H rest .cancel).ready (run.append hc)
    obtain ⟨_, _, cleared⟩ := Call.Ensures.finishes (w := s.world) (h := []) H
      (cancelReceive_clears s.config)
    exact ready.receive cleared ht h1 hl timeout

end Ready

/-- The bus turn is missed once, the first transfer sent fails and the first one received never
ends. -/
def unlucky : Bench.Script where
  tx := {
    flags := ⟨[false, false, false], true⟩
    starts := ⟨[.error], .done⟩
    programCounter := 7
    origin := 3 }
  rx := {
    starts := ⟨[.never], .done⟩
    deliveries := ⟨[[], [0x03ffff, 0xe00000]], []⟩
    programCounter := 9
    origin := 5 }

/-- A send that times out, one that faults, and a receive whose engine fails while it is armed. -/
def mishaps : List Operation :=
  [.request (.send [0x01] 10) 1, .request (.send [0x02] 10) 1, .request (.arm 2) 1,
    .disturb ⟨.rx, .error⟩]

theorem recoverable_mishaps :
    let s := ((Session.start { busTurnTimeout := 4 } unlucky).run prompt mishaps).2
    (∃ o, (send s.config [0x41, 0x02] 10).Returns prompt s.world o ∧
      o.value = .ok () ∧ o.trace.handed .tx = [0x0000000f, 0x41020000]) ∧
    (∃ o f, (receive s.config 2 10).Returns prompt (s.step prompt .cancel).2.1.world o ∧
      o.value = .ok f ∧ f.bytes = [0x3f, 0x80]) := by
  obtain ⟨sends, receives⟩ := recoverable prompt prompt_timely { busTurnTimeout := 4 } unlucky
    mishaps (by decide +kernel)
  refine ⟨?_, ?_⟩
  · obtain ⟨words, o, he, ho, -, ha⟩ := sends [0x41, 0x02] 10 (by decide) (by decide +kernel)
    cases Except.ok.inj he
    refine ⟨o, ho, ha ?_⟩
    rw [ho.trace_eq (by decide +kernel)]
    decide +kernel
  · obtain ⟨o, ho, -, ha⟩ := receives 2 10 (by decide) (by decide +kernel) (by decide +kernel)
    rw [ho.trace_eq (by decide +kernel)] at ha
    exact ⟨o, _, ho, ha (by decide +kernel), by decide +kernel⟩

end Joybus.Transceiver
