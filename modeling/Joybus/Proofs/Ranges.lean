import Joybus.Proofs.Bookkeeping
import Joybus.Proofs.Recovery

/-! The receive side remembers a length exactly while it is armed, and never one that no frame has;
so every access to the transfer buffers is in range. -/
namespace Joybus.Transceiver

variable {σ α : Type} {l : Link} {h : Trace} {c : LinkConfig} {len timeout : Nat}

/-- What the receive side notes of itself fits together: it is armed for a frame of some length, or
it is idle, and armed for an empty frame at most. -/
inductive Coherent (c : LinkConfig) (l : Link) : Prop
  | armed (n : Nat) : l.rx = .armed → l.expected = some n → 1 ≤ n → n ≤ c.maxFrameBytes →
      Coherent c l
  | idle : l.rx = .idle → l.expected = none ∨ l.expected = some 0 → Coherent c l

namespace Coherent

theorem unarmed (hl : l.expected = none ∧ l.rx = .idle) : Coherent c l := .idle hl.2 (.inl hl.1)

theorem noted (hc : Coherent c l) : Noted l := by
  cases hc with
  | armed n _ he h1 _ => exact noted_of_armed (by omega) he
  | idle hr _ => exact noted_of_idle hr

/-- A length that is remembered is one that a frame can have. -/
theorem le_max (hc : Coherent c l) (he : l.expected = some len) : len ≤ c.maxFrameBytes := by
  cases hc with
  | armed n _ hn _ hm =>
    rw [he] at hn
    cases hn
    exact hm
  | idle _ hn =>
    rcases hn with hn | hn
    · rw [he] at hn
      cases hn
    · rw [he] at hn
      cases hn
      exact Nat.zero_le _

theorem armed_iff (hc : Coherent c l) :
    l.rx = .armed ↔ ∃ n, l.expected = some n ∧ 1 ≤ n ∧ n ≤ c.maxFrameBytes := by
  cases hc with
  | armed n hr he h1 hm => exact ⟨fun _ => ⟨n, he, h1, hm⟩, fun _ => hr⟩
  | idle hr he =>
    constructor
    · intro ha
      rw [hr] at ha
      cases ha
    · rintro ⟨n, hn, h1, -⟩
      rcases he with he | he
      · rw [he] at hn
        cases hn
      · rw [he] at hn
        cases hn
        omega

theorem idle_of_not_armed (hc : Coherent c l) (hn : l.rx ≠ .armed) :
    l.rx = .idle ∧ (l.expected = none ∨ l.expected = some 0) := by
  cases hc with
  | armed n hr => exact (hn hr).elim
  | idle hr he => exact ⟨hr, he⟩

/-- Only the two notes matter. -/
theorem congr {l' : Link} (hc : Coherent c l) (hl : l'.expected = l.expected ∧ l'.rx = l.rx) :
    Coherent c l' := by
  obtain ⟨he, hr⟩ := hl
  cases hc with
  | armed n ha hn h1 hm => exact .armed n (hr.trans ha) (he.trans hn) h1 hm
  | idle hi hn => exact .idle (hr.trans hi) (by rwa [he])

theorem arms {r : Except RxError Unit} {l' : Link} (hc : Coherent c l) (ha : Arms c len l r l') :
    Coherent c l' := by
  cases r with
  | error e =>
    obtain ⟨he, hr, -⟩ := ha
    exact hc.congr ⟨he, hr⟩
  | ok =>
    obtain ⟨hm, he, hr⟩ := ha
    by_cases hl : len = 0
    · subst hl
      exact .idle hr (.inr he)
    · rw [if_neg hl] at hr
      exact .armed len hr he (by omega) hm

end Coherent

theorem kept_coherent : Kept fun c l _ => Coherent c l where
  send c bytes timeout l h hc := by
    have notes := (keeps_notes l.expected l.rx).onSide (h := h) (send_onSide c bytes timeout)
      (fun a ha => ⟨not_setExpected_of_tx a ha, not_setRx_of_tx a ha⟩) trivial ⟨rfl, rfl⟩
    exact notes.mono (fun _ _ _ hl => hc.congr hl) fun _ _ hl => hc.congr hl
  arm c len l h hc :=
    (armReceive_arms c len hc.noted).mono (fun _ _ _ ha => hc.arms ha) fun _ _ hl => .unarmed hl
  finish c timeout l h hc :=
    (finishReceive_notes c timeout hc.noted).mono (fun _ _ _ hl => .unarmed hl)
      fun _ _ hl => .unarmed hl
  cancel c l h hc := by
    refine ((cancelReceive_clears c).and (cancelReceive_notes c hc.noted)).mono ?_
      fun _ _ hf => hf.1
    rintro _ l h ⟨he, hn⟩
    exact .unarmed ⟨he, hn.idle (.inl he)⟩
  marks _ ms l h hc := hc.congr ((keeps_notes l.expected l.rx).marks (h := h) ms ⟨rfl, rfl⟩)
  take _ _ _ _ hc := hc.congr ⟨rfl, rfl⟩
  recreate _ _ _ _ _ := by
    intro _ _ _ _
    exact .unarmed ⟨rfl, rfl⟩

/-- An action that takes no more of the transfer buffers than there is: the words staged and started
fit into the one, the words to be received into the other. -/
def Action.InRange : Action → Prop
  | .stage ws | .command (.startTx ws) => ws.length ≤ WordStream.capacity
  | .staged n => n ≤ WordStream.capacity
  | .command (.startRx n) | .fetch n => n ≤ rxCapacity
  | .store i _ => i < rxCapacity
  | _ => True

@[inherit_doc Action.InRange]
def Event.InRange : Event → Prop
  | .acted a _ => a.InRange
  | .marked _ _ | .consumed _ | .delayed _ => True

theorem keeps_inRange :
    Keeps Action.InRange (fun _ => True) fun _ h => ∀ e ∈ h, e.InRange := by
  refine (keeps_forall (E := Event.InRange) ?_).weaken (fun _ ha _ => ha) fun _ hd => hd
  intro e he
  cases e with
  | acted a x => exact he.elim
  | _ => trivial

/-- The words of a frame fit into the buffer that they are received in. -/
theorem wordCount_le_capacity (hl : len ≤ c.maxFrameBytes) :
    c.packing.wordCount len ≤ rxCapacity :=
  Nat.le_trans (wordCount_le _ _) (Nat.le_trans hl (maxFrameBytes_le c))

theorem Action.OfSend.inRange {words : List Word} {a : Action} (ha : a.OfSend words)
    (hw : words.length ≤ WordStream.capacity) : a.InRange := by
  cases a with
  | command c =>
    cases c with
    | startTx ws => exact Nat.le_trans ha hw
    | startRx n => cases ha
    | _ => trivial
  | stage ws =>
    cases ha
    exact hw
  | staged n =>
    cases ha
    exact hw
  | store i word => cases ha
  | fetch n => cases ha
  | _ => trivial

theorem Action.OfReceive.inRange {count : Nat} {a : Action} (ha : a.OfReceive count)
    (hc : count ≤ rxCapacity) : a.InRange := by
  cases a with
  | command c =>
    cases c with
    | startTx ws => cases ha
    | startRx n =>
      cases ha
      exact hc
    | _ => trivial
  | stage ws => cases ha
  | staged n => cases ha
  | store i word => exact Nat.lt_of_lt_of_le ha hc
  | fetch n =>
    cases ha
    exact hc
  | _ => trivial

theorem Call.Sends.inRange {call : Call α} {words : List Word} (hc : call.Sends words)
    (hw : words.length ≤ WordStream.capacity) (hr : ∀ e ∈ h, e.InRange) :
    call.Ensures (fun _ _ h => ∀ e ∈ h, e.InRange) (fun _ h => ∀ e ∈ h, e.InRange) l h := by
  refine keeps_inRange.uses hc (fun _ ha => ha.inRange hw) (fun p _ _ => p.within_any) ?_ hr
  rintro p undo ⟨-, hu⟩ l h hr
  exact keeps_inRange.all (fun a ha => (hu a ha).inRange hw) hr

theorem Call.Receives.inRange {call : Call α} {count : Nat} (hc : call.Receives count)
    (hw : count ≤ rxCapacity) (hr : ∀ e ∈ h, e.InRange) :
    call.Ensures (fun _ _ h => ∀ e ∈ h, e.InRange) (fun _ h => ∀ e ∈ h, e.InRange) l h := by
  refine keeps_inRange.uses hc (fun _ ha => ha.inRange hw) (fun p _ _ => p.within_any) ?_ hr
  rintro p undo ⟨-, hu⟩ l h hr
  exact keeps_inRange.all (fun a ha => (hu a ha).inRange hw) hr

theorem send_inRange (c : LinkConfig) (bytes : List Byte) (timeout : Nat)
    (hr : ∀ e ∈ h, e.InRange) :
    (send c bytes timeout).Ensures (fun _ _ h => ∀ e ∈ h, e.InRange)
      (fun _ h => ∀ e ∈ h, e.InRange) l h := by
  cases he : WordStream.encode bytes c.maxFrameBytes with
  | ok words => exact (send_sends timeout he).inRange (WordStream.length_encode he) hr
  | error e =>
    rw [send, he]
    exact hr

theorem armReceive_inRange (c : LinkConfig) (len : Nat) (hr : ∀ e ∈ h, e.InRange) :
    (armReceive c len).Ensures (fun _ _ h => ∀ e ∈ h, e.InRange)
      (fun _ h => ∀ e ∈ h, e.InRange) l h := by
  by_cases hl : c.maxFrameBytes < len
  · rw [armReceive, if_pos hl]
    exact hr
  · exact (armReceive_receives c len).inRange (wordCount_le_capacity (by omega)) hr

/-- A receive is finished with the length remembered from its arming, so that length has to be one
that a frame can have. -/
theorem finishReceive_inRange (timeout : Nat) (hc : Coherent c l) (hr : ∀ e ∈ h, e.InRange) :
    (finishReceive c timeout).Ensures (fun _ _ h => ∀ e ∈ h, e.InRange)
      (fun _ h => ∀ e ∈ h, e.InRange) l h := by
  have read := keeps_inRange.act .expected trivial l.expected l h hr
  rw [finishReceive, Call.ensures_bind, Call.ensures_expected, Action.Ensures]
  cases he : l.expected with
  | none =>
    rw [he] at read
    exact read
  | some len =>
    rw [he] at read
    have taken := keeps_inRange.act (.setExpected none) trivial () l _ read
    have fits := wordCount_le_capacity (hc.le_max he)
    rw [Call.ensures_bind, Call.ensures_setExpected, Action.Ensures]
    split
    · exact taken
    · cases hm : c.mode with
      | dma => exact finishDma_receives.inRange fits taken
      | fifo => exact finishFifo_receives.inRange fits taken

theorem cancelReceive_inRange (c : LinkConfig) (hr : ∀ e ∈ h, e.InRange) :
    (cancelReceive c).Ensures (fun _ _ h => ∀ e ∈ h, e.InRange) (fun _ _ => False) l h :=
  keeps_inRange.uses (cancelReceive_receives c 0) (fun _ ha => ha.inRange (Nat.zero_le _))
    (fun _ _ hw => hw.elim) (fun _ _ hw => hw.elim) hr

/-- Every access to the buffers is in range, as long as the notes of the receive side fit
together. -/
theorem kept_inRange : Kept fun c l h => Coherent c l ∧ ∀ e ∈ h, e.InRange where
  send c bytes timeout l h := by
    rintro ⟨hc, hr⟩
    exact (kept_coherent.send c bytes timeout l h hc).and (send_inRange c bytes timeout hr)
  arm c len l h := by
    rintro ⟨hc, hr⟩
    exact (kept_coherent.arm c len l h hc).and (armReceive_inRange c len hr)
  finish c timeout l h := by
    rintro ⟨hc, hr⟩
    exact (kept_coherent.finish c timeout l h hc).and (finishReceive_inRange timeout hc hr)
  cancel c l h := by
    rintro ⟨hc, hr⟩
    exact ((kept_coherent.cancel c l h hc).and (cancelReceive_inRange c hr)).mono
      (fun _ _ _ hn => hn) fun _ _ hf => hf.1
  marks c ms l h := by
    rintro ⟨hc, hr⟩
    exact ⟨kept_coherent.marks c ms l h hc, keeps_inRange.marks (l := l) ms hr⟩
  take c d l h := by
    rintro ⟨hc, hr⟩
    exact ⟨kept_coherent.take c d l h hc, keeps_inRange.consumption (l := l) (d := d) trivial hr⟩
  recreate c c' l h := by
    rintro ⟨hc, hr⟩
    refine (kept_coherent.recreate c c' l h hc).and (keeps_inRange.all ?_ hr)
    simp [farewell, Action.InRange]

/-- Between any two operations of any run the transmit side is idle, and the receive side is armed
exactly while it remembers a length from one to the longest that a frame has, and idle otherwise,
for an empty frame at most. In every such run no access to the transfer buffers is out of range. -/
theorem states_coherent (H : Hardware σ) (config : LinkConfig) (hardware : σ)
    (ops : List Operation) :
    let s := ((Session.start config hardware).run H ops).2
    s.world.link.tx = .idle ∧
    (s.world.link.rx = .armed ↔
      ∃ n, s.world.link.expected = some n ∧ 1 ≤ n ∧ n ≤ s.config.maxFrameBytes) ∧
    (s.world.link.rx ≠ .armed → s.world.link.rx = .idle ∧
      (s.world.link.expected = none ∨ s.world.link.expected = some 0)) ∧
    ∀ tr ∈ ((Session.start config hardware).run H ops).1.map Prod.snd, ∀ e ∈ tr, e.InRange := by
  intro s
  have idle := kept_idle.run H (s := Session.start config hardware) (h := []) rfl ops
  have start : Coherent config (Session.start config hardware).world.link :=
    .unarmed ⟨rfl, rfl⟩
  obtain ⟨coherent, ranges⟩ := kept_inRange.run H (s := Session.start config hardware) (h := [])
    ⟨start, by simp⟩ ops
  refine ⟨idle, coherent.armed_iff, coherent.idle_of_not_armed, ?_⟩
  intro tr htr e he
  exact ranges e (List.mem_flatten.2 ⟨tr, htr, he⟩)

end Joybus.Transceiver
