import Joybus.Proofs.Responsive

/-! A receive that the hardware answers in time gives the frame in the words it delivers. -/
namespace Joybus.Transceiver

open Trace

variable {l : Link} {h : Trace} {c : LinkConfig} {len timeout : Nat}

/-- The receive side was not used so far. -/
def Unreceived (l : Link) (h : Trace) : Prop :=
  Dormant .rx l h ∧ h.delivered = [] ∧ h.misses (.push .rx) = 0 ∧ h.misses .pull = 0

/-- The first words in the buffer are those that were delivered. -/
def Holds (count : Nat) (l : Link) (h : Trace) : Prop :=
  l.received.toList.take count = h.delivered

/-- An engine works, and its words stand in the buffer. -/
def Filling (count : Nat) (l : Link) (h : Trace) : Prop := Underway .rx l h ∧ Holds count l h

/-- A receive of `len` bytes is armed; an engine has written its words already. -/
def Armed (c : LinkConfig) (len : Nat) (l : Link) (h : Trace) : Prop :=
  l.expected = some len ∧ match c.mode with
    | .dma => Filling (c.packing.wordCount len) l h
    | .fifo => h.delivered = [] ∧ h.misses .pull = 0

/-- An action by which no word is received. -/
def Action.ReceivesNothing (a : Action) : Prop :=
  ¬ a.Handles .rx ∧ ¬ a.Writes ∧ a ≠ .command (.pull .rx)

theorem receivesNothing_of_tx (a : Action) (ha : a.side = .tx) : a.ReceivesNothing := by
  refine ⟨not_handles_of_side (d := .rx) a ha, ?_, ?_⟩
  · intro hw
    cases a with
    | command c => cases c <;> first | exact hw | exact Direction.noConfusion ha
    | store i w => exact Direction.noConfusion ha
    | _ => exact hw
  · rintro rfl
    exact Direction.noConfusion ha

theorem Action.ReceivesNothing.delivered {a : Action} (ha : a.ReceivesNothing) (x : a.Answer) :
    (Event.acted a x).delivered = [] ∧ (Event.acted a x).miss? ≠ some .pull := by
  obtain ⟨-, hw, hp⟩ := ha
  cases a with
  | command c =>
    cases c with
    | pull e =>
      cases e with
      | rx => exact (hp rfl).elim
      | tx => cases x <;> simp [Event.delivered, Event.miss?]
    | startRx n => exact (hw trivial).elim
    | flag e i => cases e <;> cases x <;> simp [Event.delivered, Event.miss?]
    | push e w => cases x <;> simp [Event.delivered, Event.miss?]
    | _ => simp [Event.delivered, Event.miss?]
  | _ => simp [Event.delivered, Event.miss?]

theorem keeps_holds (count : Nat) :
    Keeps Action.ReceivesNothing (fun _ => True) (Holds count) where
  act a ha x l h hh := by
    have hr := (keeps_received l.received).act a ha.2.1 x l h rfl
    rw [Holds, hr, delivered_append]
    simpa [Holds, (ha.delivered x).1] using hh
  mark m l h hh := by simpa [Holds, Event.delivered] using hh
  wake d l h hh := hh
  delay us l h hh := by simpa [Holds, Event.delivered] using hh
  take d _ r l h _ hh := by simpa [Holds, Event.delivered] using hh

theorem keeps_filling (count : Nat) : Keeps Action.ReceivesNothing (· ≠ .rx) (Filling count) :=
  (keeps_underway.weaken (fun _ ha => ha.1) fun _ hd => hd).and
    ((keeps_holds count).weaken (fun _ ha => ha) fun _ _ => trivial)

theorem keeps_unasked : Keeps Action.ReceivesNothing (fun _ => True)
    fun _ h => h.delivered = [] ∧ h.misses .pull = 0 :=
  ((keeps_delivered []).weaken (fun _ ha x => (ha.delivered x).1) fun _ hd => hd).and
    ((keeps_misses .pull 0).weaken (fun _ ha x => (ha.delivered x).2) fun _ hd => hd)

/-- Looking at the link is no use of the receive side. -/
theorem Unreceived.act {a : Action} {x : a.Answer} (hu : Unreceived l h) (ha : ¬ a.Handles .rx)
    (hd : (Event.acted a x).delivered = []) (hm : (Event.acted a x).miss? = none) :
    Unreceived (a.effect x l) (h ++ [.acted a x]) := by
  obtain ⟨hs, hv, hp, he⟩ := hu
  exact ⟨keeps_dormant.act a ha x l h hs, by simp [hv, hd], by simp [hp, hm], by simp [he, hm]⟩

/-- A send leaves an armed receive armed. -/
theorem keeps_armed : Keeps (·.side = .tx) (· ≠ .rx) (Armed c len) := by
  have expected := (keeps_expected (some len)).weaken not_setExpected_of_tx
    fun d (_ : d ≠ .rx) => trivial
  unfold Armed
  cases c.mode with
  | dma => exact expected.and ((keeps_filling _).weaken receivesNothing_of_tx fun _ hd => hd)
  | fifo => exact expected.and (keeps_unasked.weaken receivesNothing_of_tx fun _ _ => trivial)

theorem publish_misses (undo : List Action) :
    (publish c len undo).Ensures
      (fun taken _ h' => taken = false →
        h'.misses (.push .rx) = h.misses (.push .rx) + (c.budget c.busTurnTimeout).naps + 1)
      (fun _ _ => True) l h := by
  rw [publish, Call.ensures_bind]
  refine (pushWithin_misses _ .rx _ undo).imp ?_
  intro r l h' hm
  cases r with
  | none =>
    intro _
    exact hm
  | some left =>
    intro hf
    exact Bool.noConfusion hf

theorem publish_keeps {D : Direction → Prop} {I : Link → Trace → Prop} (undo : List Action)
    (hk : Keeps Action.ReceivesNothing D I) (hi : I l h) :
    (publish c len undo).Ensures (fun _ => I) (fun _ _ => True) l h :=
  hk.naps (publish_uses ⟨id, id, by simp⟩ fun _ => trivial) hi

theorem Armed.of_dma (hm : c.mode = .dma) (he : l.expected = some len)
    (hf : Filling (c.packing.wordCount len) l h) : Armed c len l h := by
  rw [Armed, hm]
  exact ⟨he, hf⟩

theorem Armed.of_fifo (hm : c.mode = .fifo) (he : l.expected = some len)
    (hk : h.delivered = [] ∧ h.misses .pull = 0) : Armed c len l h := by
  rw [Armed, hm]
  exact ⟨he, hk⟩

theorem startRx_holds {count : Nat} {words : List Word} (hc : count ≤ rxCapacity)
    (hw : count ≤ words.length) (hv : h.delivered = []) :
    Holds count (l.deposit (.startRx count) words)
      (h ++ [.acted (.command (.startRx count)) words]) := by
  have hl : count ≤ (words.take count).length := by
    rw [List.length_take]
    omega
  have ht := Buffer.take_overwrite l.received (words.take count) hc hl
  rw [List.take_take, Nat.min_self] at ht
  simpa [Holds, Link.deposit, hv, Event.delivered] using ht

theorem armDma_answered (hm : c.mode = .dma) (hc : c.packing.wordCount len ≤ rxCapacity)
    (hu : Unreceived l h) :
    (armDma c len).Ensures
      (fun r l h' => h'.Toward (ReceiveAnswered c len timeout) → r = .ok () ∧ Armed c len l h')
      (fun _ _ => True) l h := by
  obtain ⟨hd, hv, hp, -⟩ := hu
  rw [armDma, Call.ensures_bind, Call.ensures_capacity]
  intro n
  split
  · rename_i hlt
    intro hw
    have hle := hw.forall_mem (e := .acted (.capacity .rx) n) (by simp) fun _ hp => hp.room hm
    simp [Event.fits] at hle
    omega
  · have ha := (keeps_dormant.act (.capacity .rx) id n l h hd).arm
    rw [Call.ensures_bind, Call.ensures_arm, Action.Ensures, Call.ensures_bind,
      Call.ensures_startRx]
    intro words ms
    rw [Call.ensures_bind, Call.ensures_setRx, Action.Ensures]
    refine Call.ensures_hopeful fun hw => ?_
    rw [Call.ensures_bind]
    have hf := hw.forall_mem (e := .acted (.command (.startRx (c.packing.wordCount len))) words)
      (by simp) fun _ hp => hp.filled hm
    rw [Event.fills, decide_eq_true_iff] at hf
    have keeps := keeps_filling (c.packing.wordCount len)
    have awaited := ha.act (a := .command (.startRx _)) (x := words) (Link.status_deposit ..)
    have started := keeps.command ms
      ⟨⟨awaited, _, List.mem_append_right _ (List.mem_singleton.2 rfl), rfl⟩,
        startRx_holds hc hf (by simp [hv, Event.delivered])⟩
    have armed := keeps.act (.setRx .armed) ⟨id, id, by simp⟩ () _ _ started
    refine ((publish_misses _).and (publish_keeps _ keeps armed)).mono ?_ fun _ _ _ => trivial
    intro published l h' hb
    obtain ⟨hn, hk⟩ := hb
    cases published with
    | false =>
      refine Call.ensures_hopeless ?_
      intro hw
      have hle := hw.misses_le fun _ hp => hp.published
      have heq := hn rfl
      simp [hp, Event.miss?] at heq
      omega
    | true =>
      intro _
      exact ⟨rfl, .of_dma hm rfl (keeps.act (.setExpected _) ⟨id, id, by simp⟩ () l h' hk)⟩

theorem armFifo_answered (hm : c.mode = .fifo) (hu : Unreceived l h) :
    (armFifo c len).Ensures
      (fun r l h' => h'.Toward (ReceiveAnswered c len timeout) → r = .ok () ∧ Armed c len l h')
      (fun _ _ => True) l h := by
  obtain ⟨-, hv, hp, he⟩ := hu
  rw [armFifo, Call.ensures_bind]
  refine ((publish_misses []).and (publish_keeps [] keeps_unasked ⟨hv, he⟩)).mono ?_
    fun _ _ _ => trivial
  intro published l h' hb
  obtain ⟨hn, hk⟩ := hb
  cases published with
  | false =>
    refine Call.ensures_hopeless ?_
    intro hw
    have hle := hw.misses_le fun _ hp => hp.published
    have heq := hn rfl
    omega
  | true =>
    refine keeps_unasked.perform ⟨id, id, by simp⟩ hk fun _ l h hk => ?_
    intro _
    exact ⟨rfl, .of_fifo hm rfl (keeps_unasked.act (.setExpected _) ⟨id, id, by simp⟩ () l h hk)⟩

/-- Arming a receive that the hardware answers in time succeeds. -/
theorem armReceive_answered (timeout : Nat) (hn : l.expected = none) (hu : Unreceived l h)
    (h1 : len ≠ 0) (hl : len ≤ c.maxFrameBytes) (hc : c.packing.wordCount len ≤ rxCapacity) :
    (armReceive c len).Ensures
      (fun r l h' => h'.Toward (ReceiveAnswered c len timeout) → r = .ok () ∧ Armed c len l h')
      (fun _ _ => True) l h := by
  rw [armReceive, if_neg (by omega), Call.ensures_bind, Call.ensures_expected, Action.Ensures, hn,
    if_neg (by simp), Call.ensures_bind, Call.ensures_status, Action.Ensures]
  have hx := hu.act (a := .expected) (x := none) id rfl rfl
  by_cases hs : l.status .rx = .notStarted
  · rw [hs, if_neg (by simp), if_neg h1]
    have hy := hx.act (a := .status .rx) (x := .notStarted) id rfl rfl
    cases hm : c.mode with
    | dma => exact armDma_answered hm hc hy
    | fifo => exact armFifo_answered hm hy
  · rw [if_pos hs]
    intro hw
    have hd := (hx.1 (hw.of_append.solicited fun _ hp => hp.solicited)).1
    exact (hs hd).elim

theorem decodeReceived_holds (hh : Holds (c.packing.wordCount len) l h) :
    (decodeReceived c len).Ensures
      (fun frame l h' => frame = c.packing.decodeFrame h'.delivered len ∧
        Holds (c.packing.wordCount len) l h')
      (fun _ _ => True) l h := by
  have fetched := (keeps_holds _).act (.fetch (c.packing.wordCount len)) ⟨id, id, by simp⟩
    (l.received.toList.take (c.packing.wordCount len)) l h hh
  rw [decodeReceived, Call.ensures_bind, Call.ensures_fetch, Action.Ensures, Call.pure_eq,
    Call.ensures_done]
  refine ⟨?_, fetched⟩
  rw [hh]
  simp [Event.delivered]

theorem finishDma_answered (hk : Filling (c.packing.wordCount len) l h) :
    (finishDma c len timeout).Ensures
      (fun r l h' => h'.Solicited → h'.Completes .rx timeout →
        r = .ok (c.packing.decodeFrame h'.delivered len) ∧ Holds (c.packing.wordCount len) l h')
      (fun _ _ => True) l h := by
  refine (keeps_filling _).perform ⟨id, id, by simp⟩ hk fun _ l h hk => ?_
  obtain ⟨hu, hh⟩ := hk
  have waited : (Call.completion .rx timeout).Ensures
      (fun _ => Holds (c.packing.wordCount len)) (fun _ _ => True) l h := by
    rw [Call.ensures_completion]
    exact ((keeps_holds _).wait (p := .completion .rx timeout) trivial hh).mono
      (fun _ _ _ => ensuresAll_true) fun _ _ _ hh => hh
  rw [Call.ensures_bind]
  refine ((completion_underway timeout hu).and waited).mono ?_ fun _ _ _ => trivial
  intro r l h hp
  obtain ⟨hr, hh⟩ := hp
  cases r with
  | none => exact giveUp_overdue _ (hr.resolve_left (by simp))
  | some r =>
    cases r with
    | done =>
      refine (keeps_holds _).perform ⟨id, id, by simp⟩ hh fun _ l h hh => ?_
      rw [Call.ensures_bind]
      refine (decodeReceived_holds hh).imp ?_
      rintro frame l h ⟨rfl, hh⟩ _ _
      exact ⟨rfl, hh⟩
    | error => exact giveUp_overdue _ (hr.resolve_left (by simp))

theorem finishFifo_answered (hc : c.packing.wordCount len ≤ rxCapacity)
    (hk : h.delivered = [] ∧ h.misses .pull = 0) :
    (finishFifo c len timeout).Ensures
      (fun r l h' => h'.misses .pull ≤ (c.budget timeout).naps →
        r = .ok (c.packing.decodeFrame h'.delivered len) ∧ Holds (c.packing.wordCount len) l h')
      (fun _ _ => True) l h := by
  refine keeps_unasked.perform ⟨id, id, by simp⟩ hk fun _ l h hk => ?_
  obtain ⟨hv, hm⟩ := hk
  rw [Call.ensures_bind]
  refine (collect_misses _ _ 0 (by simpa using hc) (by simp [hv])).imp ?_
  intro all l h' hs
  cases all with
  | false =>
    rw [if_neg (by simp), hm] at hs
    rw [if_neg (by simp), Call.ensures_bind, Call.ensures_performAll]
    refine ((keeps_misses .pull _).all ?_ hs).mono ?_
    · simp [Action.scrap, Action.setIdle, Event.miss?]
    · intro l h'' hm hn
      omega
  | true =>
    rw [if_pos rfl, Nat.zero_add] at hs
    refine (keeps_holds _).perform ⟨id, id, by simp⟩ hs fun _ l h hh => ?_
    rw [Call.ensures_bind]
    refine (decodeReceived_holds hh).imp ?_
    rintro frame l h ⟨rfl, hh⟩ _
    exact ⟨rfl, hh⟩

/-- A receive that the hardware answers in time gives the frame in the words delivered. -/
theorem finishReceive_answered (timeout : Nat) (ha : Armed c len l h) (h1 : len ≠ 0)
    (hc : c.packing.wordCount len ≤ rxCapacity) :
    (finishReceive c timeout).Ensures
      (fun r l h' => h'.Toward (ReceiveAnswered c len timeout) →
        r = .ok (c.packing.decodeFrame h'.delivered len) ∧ Holds (c.packing.wordCount len) l h')
      (fun _ _ => True) l h := by
  obtain ⟨he, ha⟩ := ha
  rw [finishReceive, Call.ensures_bind, Call.ensures_expected, Action.Ensures, he]
  simp only [Call.ensures_bind, Call.ensures_setExpected, Action.Ensures, h1, if_false]
  cases hm : c.mode with
  | dma =>
    rw [hm] at ha
    have keeps := keeps_filling (c.packing.wordCount len)
    have hk := keeps.act (.setExpected none) ⟨id, id, by simp⟩ () l _
      (keeps.act .expected ⟨id, id, by simp⟩ (some len) l h ha)
    refine (finishDma_answered hk).imp ?_
    intro r l h' hp hw
    exact hp (hw.solicited fun _ hp => hp.solicited) (hw.completes fun _ hp => hp.received hm)
  | fifo =>
    rw [hm] at ha
    have hk := keeps_unasked.act (.setExpected none) ⟨id, id, by simp⟩ () l _
      (keeps_unasked.act .expected ⟨id, id, by simp⟩ (some len) l h ha)
    refine (finishFifo_answered hc hk).imp ?_
    intro r l h' hp hw
    exact hp (hw.misses_le fun _ hp => hp.supplied hm)

theorem receive_answered (timeout : Nat) (he : l.expected = none) (hu : Unreceived l h)
    (h1 : len ≠ 0) (hl : len ≤ c.maxFrameBytes) (hc : c.packing.wordCount len ≤ rxCapacity) :
    (receive c len timeout).Ensures
      (fun r l h' => h'.Toward (ReceiveAnswered c len timeout) →
        r = .ok (c.packing.decodeFrame h'.delivered len) ∧ Holds (c.packing.wordCount len) l h')
      (fun _ _ => True) l h := by
  rw [receive, Call.ensures_bind]
  refine (armReceive_answered timeout he hu h1 hl hc).imp ?_
  intro r l h ha
  refine Call.ensures_hopeful fun hw => ?_
  obtain ⟨rfl, armed⟩ := ha hw
  exact finishReceive_answered timeout armed h1 hc

end Joybus.Transceiver
