import Joybus.Proofs.Line
import Joybus.Proofs.Recovery

/-! A frame that is sent over a line that leads back comes back as it was, in spite of noise. -/
namespace Joybus.Transceiver

open Trace

variable {σ : Type} {l : Link} {h : Trace} {c : LinkConfig} {H : Hardware σ} {w : World σ}

/-- For every byte that the words handed to the transmit hardware carry, in order, the receive
hardware delivers a word that carries it. -/
def Trace.Echoes (h : Trace) : Prop :=
  (WordStream.carried (h.handed .tx)).length ≤ h.delivered.length ∧
    ∀ p ∈ h.delivered.zip (WordStream.carried (h.handed .tx)), Sample.Carries p.1 p.2

-- Words and bytes are finite types: all pairs of them could be tried instead of those in the list.
instance (h : Trace) : Decidable h.Echoes :=
  @instDecidableAnd _ _ (Nat.decLe _ _) (List.decidableBAll _ _)

/-- Both directions of an exchange are answered in time. -/
def Trace.Answered (c : LinkConfig) (count len timeout : Nat) (h : Trace) : Prop :=
  h.SendAnswered c count timeout ∧ h.ReceiveAnswered c len timeout

/-- The transmit side was not used so far. -/
def Untouched (l : Link) (h : Trace) : Prop :=
  l.tx = .idle ∧ Unsent l h ∧ h.misses .turn = 0

theorem sendsNothing_of_rx (a : Action) (ha : a.side = .rx) : a.SendsNothing := by
  refine ⟨not_handles_of_side (d := .tx) a ha, ?_⟩
  rintro w rfl
  exact Direction.noConfusion ha

theorem turn_of_rx (a : Action) (ha : a.side = .rx) (x : a.Answer) :
    (Event.acted a x).miss? ≠ some .turn := by
  cases a with
  | command c =>
    cases c with
    | flag d i =>
      change d = .rx at ha
      subst ha
      simp [Event.miss?]
    | push d w => cases x <;> simp [Event.miss?]
    | pull d => cases d <;> cases x <;> simp [Event.miss?]
    | _ => simp [Event.miss?]
  | _ => simp [Event.miss?]

theorem keeps_untouched : Keeps (·.side = .rx) (· ≠ .tx) Untouched :=
  ((keeps_tx .idle).weaken not_setTx_of_rx fun _ _ => trivial).and
    ((keeps_unsent.weaken sendsNothing_of_rx fun _ hd => hd).and
      ((keeps_misses .turn 0).weaken turn_of_rx fun _ _ => trivial))

/-- An exchange that the hardware answers in time hands over its words and gives the frame in the
words delivered. -/
theorem exchange_answered {bytes : List Byte} {words : List Word} {len timeout : Nat}
    (hw : WordStream.encode bytes c.maxFrameBytes = .ok words) (hn : words ≠ [])
    (hb : bytes.length ≤ c.maxFrameBytes) (h1 : len ≠ 0) (hl : len ≤ c.maxFrameBytes)
    (hc : c.packing.wordCount len ≤ rxCapacity) (he : l.expected = none) (hu : Untouched l h)
    (hr : Unreceived l h) :
    (exchange c bytes len timeout).Ensures
      (fun r _ h' => h'.Toward (Answered c words.length len timeout) →
        r = .ok (c.packing.decodeFrame h'.delivered len) ∧ h'.handed .tx = words)
      (fun _ _ => True) l h := by
  rw [exchange, if_neg (by omega), Call.ensures_bind]
  have arms := (armReceive_answered timeout he hr h1 hl hc).and
    (keeps_untouched.onSide (armReceive_onSide c len) (fun _ ha => ha) (by simp) hu)
  refine arms.mono ?_ fun _ _ _ => trivial
  intro r l h hp
  obtain ⟨ha, tx, unsent, turn⟩ := hp
  refine Call.ensures_hopeful fun ht => ?_
  obtain ⟨rfl, armed⟩ := ha (ht.mono fun _ hp => hp.2)
  rw [Call.ensures_bind]
  have sends := (send_answered c bytes timeout hw hn tx unsent turn).and
    (keeps_armed.onSide (send_onSide c bytes timeout) (fun _ ha => ha) (by simp) armed)
  refine sends.mono ?_ fun _ _ _ => trivial
  intro r l h hp
  obtain ⟨hs, armed⟩ := hp
  refine Call.ensures_hopeful fun ht => ?_
  obtain ⟨rfl, handed⟩ := hs (ht.mono fun _ hp => hp.1)
  rw [Call.ensures_bind]
  have receives := (finishReceive_answered timeout armed h1 hc).and ((keeps_offered words).onSide
    (finishReceive_onSide c timeout) sendsNothing_of_rx trivial handed)
  refine receives.mono ?_ fun _ _ _ => trivial
  intro r l h hp
  obtain ⟨hr, handed⟩ := hp
  cases r with
  | error e =>
    intro ht
    obtain ⟨ho, -⟩ := hr (ht.mono fun _ hp => hp.2)
    cases ho
  | ok frame =>
    intro ht
    have ho := Except.ok.inj (hr (ht.mono fun _ hp => hp.2)).1
    exact ⟨congrArg _ ho, handed⟩

/-- An exchange over a line that leads back returns the frame sent, if the hardware answers in time
and noise flips no more than one sample of each bit. -/
theorem exchange_round_trip (ht : H.Timely) (hp : c.packing = .one) (f : Frame)
    (h1 : 1 ≤ f.length) (hl : f.length ≤ c.maxFrameBytes) (he : w.link.expected = none)
    (hi : w.link.tx = .idle) (hs : ∀ d, w.link.status d = .notStarted) (timeout : Nat) :
    ∃ words o, WordStream.encode f.bytes c.maxFrameBytes = .ok words ∧
      (exchange c f.bytes f.length timeout).Returns H w o ∧
      (o.trace.SendAnswered c words.length timeout → o.trace.ReceiveAnswered c f.length timeout →
        o.trace.Echoes → o.value = .ok f) := by
  have hb : f.bytes ≠ [] := by
    intro hb
    simp [Frame.length, hb] at h1
  have hw := encode_eq_ok c hb hl
  have hc : c.packing.wordCount f.length ≤ rxCapacity :=
    Nat.le_trans (wordCount_le _ _) (Nat.le_trans hl (maxFrameBytes_le c))
  have untouched : Untouched w.link [] :=
    ⟨hi, ⟨fun _ => ⟨hs .tx, by simp [Trace.Unreported]⟩, rfl, rfl⟩, rfl⟩
  have unreceived : Unreceived w.link [] :=
    ⟨fun _ => ⟨hs .rx, by simp [Trace.Unreported]⟩, rfl, rfl, rfl⟩
  obtain ⟨o, ho⟩ := ht.returns (exchange c f.bytes f.length timeout) w
  refine ⟨_, o, hw, ho, ?_⟩
  intro sent received echoes
  obtain ⟨enough, carries⟩ := echoes
  obtain ⟨hv, handed⟩ := ho.ensured (exchange_answered hw (by simp) hl (by omega) hl hc he untouched
    unreceived) (.self ⟨sent, received⟩)
  rw [List.nil_append] at hv handed
  have carried : WordStream.carried (o.trace.handed .tx) = f.bytes :=
    handed ▸ WordStream.carried_stream h1 f.length_le
  rw [carried] at enough carries
  rw [hv, hp, Packing.decodeFrame_one enough carries]

def greeting : Frame := ⟨[0x41, 0xa5, 0x00, 0xff, 0x13], by decide⟩

/-- Words of samples for `greeting`, with one sample of nearly every bit flipped. -/
def hitSamples : List Word :=
  greeting.bytes.zipWith (fun b noise => Sample.oversample b ^^^ noise)
    [0xff249249, 0x00492492, 0x5a924924, 0x01292492, 0x80000000]

/-- A line that leads back, to an engine and through the FIFO. -/
def hitLine : Bench.Script where
  rx := {
    pulls := ⟨none :: hitSamples.map some, none⟩
    deliveries := ⟨[hitSamples], []⟩
    programCounter := 9
    origin := 5 }

theorem exchange_round_trip_hit :
    let dma := Session.start {} hitLine
    let fifo := Session.start { mode := .fifo } hitLine
    (∃ o, (exchange dma.config greeting.bytes greeting.length 10).Returns prompt dma.world o ∧
      o.value = .ok greeting) ∧
    (∃ o, (exchange fifo.config greeting.bytes greeting.length 10).Returns prompt fifo.world o ∧
      o.value = .ok greeting) := by
  intro dma fifo
  refine ⟨?_, ?_⟩
  · obtain ⟨words, o, he, ho, ha⟩ := exchange_round_trip (c := dma.config) (w := dma.world)
      prompt_timely rfl greeting (by decide) (by decide) rfl rfl (by rintro (_ | _) <;> rfl) 10
    cases Except.ok.inj he
    rw [ho.trace_eq (by decide +kernel)] at ha
    exact ⟨o, ho, ha (by decide +kernel) (by decide +kernel) (by decide +kernel)⟩
  · obtain ⟨words, o, he, ho, ha⟩ := exchange_round_trip (c := fifo.config) (w := fifo.world)
      prompt_timely rfl greeting (by decide) (by decide) rfl rfl (by rintro (_ | _) <;> rfl) 10
    cases Except.ok.inj he
    rw [ho.trace_eq (by decide +kernel)] at ha
    exact ⟨o, ho, ha (by decide +kernel) (by decide +kernel) (by decide +kernel)⟩

end Joybus.Transceiver
