import Joybus.Proofs.Exchanges
import Joybus.Proofs.Line

/-! The two modes agree: a frame goes out as the same words, by an engine or through the FIFO, and
the same words that come in give the same frame. -/
namespace Joybus.Transceiver

open Trace

variable {σ τ : Type} {l : Link} {h ev : Trace} {c : LinkConfig} {words : List Word}
  {len timeout : Nat}

namespace Event

/-- The words that the transmit engine is started on. -/
def launched? : Event → Option (List Word)
  | .acted (.command (.startTx ws)) _ => some ws
  | _ => none

/-- The word that the program of direction `d` takes. -/
def accepted? (d : Direction) : Event → Option Word
  | .acted (.command (.push e w)) true => if e = d then some w else none
  | _ => none

end Event

namespace Trace

/-- What the transmit engine was started on, each time. -/
def launched (h : Trace) : List (List Word) := h.filterMap Event.launched?

/-- The words that the program of direction `d` took one by one. -/
def accepted (d : Direction) (h : Trace) : List Word := h.filterMap (Event.accepted? d)

/-- What the hardware takes it takes one by one, unless the transmit engine is started. -/
theorem accepted_eq_handed {d : Direction} (hs : d = .tx → h.launched = []) :
    h.accepted d = h.handed d := by
  induction h with
  | nil => rfl
  | cons e h ih =>
    have first : d = .tx → e.launched? = none := by
      intro hd
      exact List.filterMap_eq_nil_iff.1 (hs hd) e List.mem_cons_self
    have rest := ih fun hd => List.filterMap_eq_nil_iff.2 fun x hx =>
      List.filterMap_eq_nil_iff.1 (hs hd) x (List.mem_cons_of_mem e hx)
    have same : (e.accepted? d).toList = e.handed d := by
      cases e with
      | acted a x =>
        cases a with
        | command c =>
          cases c with
          | startTx ws => cases d <;> simp_all [Event.launched?, Event.accepted?, Event.handed]
          | push e w => cases x <;> cases e <;> cases d <;> rfl
          | _ => rfl
        | _ => rfl
      | _ => rfl
    rw [handed_cons, ← rest, ← same]
    cases he : e.accepted? d <;> simp [accepted, he]

end Trace

/-- The transmit engine is left alone. -/
theorem keeps_launched (ws : List (List Word)) :
    Keeps (fun a => ∀ x, (Event.acted a x).launched? = none) (fun _ => True)
      fun _ h => h.launched = ws := by
  refine .of_trace (E := fun e => e.launched? = none) (P := fun h => h.launched = ws) ?_ ?_
  · intro e he
    cases e with
    | acted a x => exact he.elim
    | _ => rfl
  · intro h e he hs
    simpa [launched, he] using hs

theorem keeps_tokens (ts : List Token) :
    Keeps Action.Tokenless (fun _ => True) fun _ h => h.tokens = ts := by
  refine .of_trace (E := fun e => e.token? = none) (P := fun h => h.tokens = ts)
    (fun _ he => (tokenless_of_passive he).1) ?_
  intro h e he ht
  simpa [tokens_concat, he] using ht

theorem unlaunched_of_engineless (a : Action) (ha : a.Engineless) (x : a.Answer) :
    (Event.acted a x).launched? = none := by
  cases a with
  | command c => cases c <;> first | exact ha.elim | rfl
  | _ => rfl

section Send
variable {ts : List Token} {ws : List (List Word)}

theorem takeBusTurn_tokens (c : LinkConfig) (ht : h.tokens = ts) :
    (takeBusTurn c).Ensures (fun taken _ h => taken = true → h.tokens = ts ++ [.taken])
      (fun _ _ => True) l h := by
  have looks : (awaitBusTurn (c.budget c.busTurnTimeout)).Uses Action.Tokenless
      fun p _ => p.IsNap := awaitBusTurn_uses (fun _ => rfl) fun _ => trivial
  rw [takeBusTurn, Call.ensures_bind]
  refine ((keeps_tokens ts).naps looks ht).imp ?_
  intro seen l h ht
  cases seen with
  | false =>
    intro _ _ taken
    cases taken
  | true =>
    refine (keeps_tokens (ts ++ [.taken])).reach ?_ fun _ _ _ ht _ => ht
    intro x
    simp [tokens_concat, ht, Event.token?]

theorem sendDma_launches (words : List Word) (timeout : Nat)
    (fits : words.length ≤ WordStream.capacity) (hs : h.launched = ws) :
    (sendDma words timeout).Ensures (fun _ _ h => h.launched = ws ++ [words]) (fun _ _ => True)
      l h := by
  have before := keeps_launched ws
  have after := keeps_launched (ws ++ [words])
  refine before.stage (fun _ => rfl) (fun _ => rfl) hs fun staged same l h hs => ?_
  cases same fits
  refine before.perform (fun _ => rfl) hs fun _ l h hs => ?_
  refine before.perform (fun _ => rfl) hs fun _ l h hs => ?_
  have started : ∀ x, Trace.launched (h ++ [.acted (.command (.startTx words)) x]) =
      ws ++ [words] := by
    intro x
    simpa [Trace.launched, Event.launched?] using hs
  -- Nothing that follows starts the engine again.
  refine after.reach started fun _ l h hs => ?_
  refine after.perform (fun _ => rfl) hs fun _ l h hs => ?_
  refine after.perform (fun _ => rfl) hs fun _ l h hs => ?_
  have abandons : ∀ a ∈ Action.abandon .tx, ∀ x, (Event.acted a x).launched? = none := by
    simp [Action.abandon, Action.setIdle, Event.launched?]
  rw [Call.ensures_bind, Call.ensures_completion]
  refine (after.wait (p := .completion .tx timeout) trivial hs).mono
    (fun _ _ _ => ensuresAll_true) ?_
  intro r l h hs
  have given_up : ∀ r : Except TxError Unit, (do
      Call.performAll (Action.abandon .tx)
      Call.reset .tx
      pure r : Call (Except TxError Unit)).Ensures (fun _ _ h => h.launched = ws ++ [words])
        (fun _ _ => True) l h := by
    intro r
    rw [Call.ensures_bind, Call.ensures_performAll]
    refine (after.all abandons hs).mono ?_
    intro l h hs
    exact after.perform (fun _ => rfl) hs fun _ _ _ hs => hs
  cases r with
  | none => exact given_up _
  | some r =>
    cases r with
    | done => exact after.perform (fun _ => rfl) hs fun _ _ _ hs => hs
    | error => exact given_up _

/-- A send that succeeds has taken the token once and notified once, and it has started the engine
on its words once, where there is one. -/
theorem sendWords_records (c : LinkConfig) (words : List Word) (timeout : Nat)
    (fits : words.length ≤ WordStream.capacity) (ht : h.tokens = ts) (hs : h.launched = ws) :
    (sendWords c words timeout).Ensures
      (fun r _ h => r = .ok () → h.tokens = ts ++ [.taken, .notified] ∧
        (c.mode = .dma → h.launched = ws ++ [words]) ∧ (c.mode = .fifo → h.launched = ws))
      (fun _ _ => True) l h := by
  have tokens := keeps_tokens ts
  have unlaunched := keeps_launched ws
  have keeps := tokens.both unlaunched
  refine keeps.perform ⟨fun _ => rfl, fun _ => rfl⟩ ⟨ht, hs⟩ fun s l h hk => ?_
  split
  · exact nofun
  refine keeps.perform ⟨fun _ => rfl, fun _ => rfl⟩ hk fun s l h hk => ?_
  split
  · exact nofun
  obtain ⟨ht, hs⟩ := hk
  have turn : (takeBusTurn c).Ensures (fun _ _ h => h.launched = ws) (fun _ _ => True) l h :=
    (unlaunched.engineless (takeBusTurn_engineless c) unlaunched_of_engineless hs).mono
      (fun _ _ _ hs => hs) fun _ _ _ => trivial
  rw [Call.ensures_bind]
  refine ((takeBusTurn_tokens c ht).and turn).mono ?_ fun _ _ _ => trivial
  rintro taken l h ⟨ht, hs⟩
  cases taken with
  | false => exact nofun
  | true =>
    have held := keeps_tokens (ts ++ [.taken])
    have released := keeps_tokens (ts ++ [.taken, .notified])
    have notify : ∀ (l : Link) h, Trace.tokens h = ts ++ [.taken] →
        Trace.tokens (h ++ [.acted (.command (.notify .tx)) ()]) = ts ++ [.taken, .notified] := by
      intro _ h ht
      simp [tokens_concat, ht, Event.token?]
    cases hm : c.mode with
    | dma =>
      have notifies := sendDma_notifies (l := l) words timeout held released notify (ht rfl)
      refine (notifies.and (sendDma_launches words timeout fits hs)).mono ?_ fun _ _ _ => trivial
      rintro r l h ⟨ht, hs⟩ _
      exact ⟨ht, fun _ => hs, by simp⟩
    | fifo =>
      have notifies := sendFifo_notifies (l := l) c words timeout held released notify (ht rfl)
      have feeds := unlaunched.engineless (l := l) (sendFifo_engineless c words timeout)
        unlaunched_of_engineless hs
      refine (notifies.and feeds).mono ?_ fun _ _ _ => trivial
      rintro r l h ⟨ht, hs⟩ _
      exact ⟨ht, by simp, fun _ => hs⟩

theorem send_records {bytes : List Byte} (timeout : Nat) (hw : words ≠ [])
    (he : WordStream.encode bytes c.maxFrameBytes = .ok words) (ht : h.tokens = ts)
    (hs : h.launched = ws) :
    (send c bytes timeout).Ensures
      (fun r _ h => r = .ok () → h.tokens = ts ++ [.taken, .notified] ∧
        (c.mode = .dma → h.launched = ws ++ [words]) ∧ (c.mode = .fifo → h.launched = ws))
      (fun _ _ => True) l h := by
  have fits := WordStream.length_encode he
  rw [send, he]
  cases words with
  | nil => exact (hw rfl).elim
  | cons word words =>
    cases hm : c.mode with
    | fifo =>
      have records := sendWords_records (l := l) c (word :: words) timeout fits ht hs
      rwa [hm] at records
    | dma =>
      refine ((keeps_tokens ts).both (keeps_launched ws)).perform ⟨fun _ => rfl, fun _ => rfl⟩
        ⟨ht, hs⟩ fun n l h hk => ?_
      split
      · intro sent
        cases sent
      · have records := sendWords_records (l := l) c (word :: words) timeout fits hk.1 hk.2
        rwa [hm] at records

end Send

section Receive

/-- A receive publishes its bit count, and no other word. -/
theorem receive_publishes (c : LinkConfig) (hl : len ≠ 0) (timeout : Nat)
    (hh : h.handed .rx = words) :
    (receive c len timeout).Ensures
      (fun r _ h => r.isOk → h.handed .rx = words ++ [WordStream.header len])
      (fun _ _ => True) l h := by
  have keeps := keeps_handed .rx (words ++ [WordStream.header len])
  have waits : (finishReceive c timeout).Uses (fun a => ∀ x, (Event.acted a x).handed .rx = [])
      fun _ _ => True :=
    finishReceive_uses (fun _ => rfl) (fun _ => rfl)
      (fun _ => finishDma_uses (fun _ _ => rfl) (fun _ => rfl) (fun _ => rfl) (fun _ => rfl)
        (fun _ => rfl) trivial)
      fun _ => finishFifo_uses (fun _ _ => rfl) (fun _ => rfl) (fun _ _ _ _ => rfl) (fun _ => rfl)
        (fun _ => rfl) fun _ => trivial
  rw [receive, Call.ensures_bind]
  refine (armReceive_records c len hh).mono ?_ fun _ _ _ => trivial
  intro r l h records
  cases r with
  | error e =>
    intro received
    cases received
  | ok =>
    have published := (records rfl).2 hl
    refine (keeps.uses waits (fun _ ha => ha) (fun p _ _ => p.within_any)
      (fun _ _ _ _ _ _ => ensuresAll_true) published).imp ?_
    intro r l h handed _
    exact handed

/-- The words in the buffer are as many as the receive takes. -/
theorem Holds.length_delivered {count : Nat} (hh : Holds count l h) (hc : count ≤ rxCapacity) :
    h.delivered.length = count := by
  rw [← hh, List.length_take, Vector.length_toList]
  omega

end Receive

section Quiet
variable {H : Hardware σ} {w : World σ}

/-- A send over a quiet side that the hardware answers in time succeeds, takes the token once and
notifies once, and hands over its words in the way of its mode. -/
theorem Link.Quiet.send (hq : w.link.Quiet .tx) (ht : H.Timely) {bytes : List Byte}
    (he : WordStream.encode bytes c.maxFrameBytes = .ok words) (hw : words ≠ []) (timeout : Nat) :
    ∃ o, (Transceiver.send c bytes timeout).Returns H w o ∧
      (o.trace.SendAnswered c words.length timeout →
        o.value = .ok () ∧ o.trace.tokens = [.taken, .notified] ∧
        (c.mode = .dma → o.trace.launched = [words]) ∧
        (c.mode = .fifo → o.trace.accepted .tx = words)) := by
  obtain ⟨o, ho⟩ := ht.returns (Transceiver.send c bytes timeout) w
  refine ⟨o, ho, ?_⟩
  intro answered
  have unsent : Unsent w.link [] := ⟨fun _ => ⟨hq.unused, by simp [Trace.Unreported]⟩, rfl, rfl⟩
  obtain ⟨ok, handed⟩ := ho.ensured (send_answered c bytes timeout he hw hq.idle unsent rfl)
    (.self answered)
  obtain ⟨tokens, dma, fifo⟩ := ho.ensured (h := []) (send_records timeout hw he rfl rfl) ok
  refine ⟨ok, tokens, dma, ?_⟩
  intro hm
  exact (accepted_eq_handed fun _ => fifo hm).trans handed

/-- A receive over a quiet side that the hardware answers in time gives the frame in the words that
come, whatever comes after them, and publishes its bit count once. -/
theorem Link.Quiet.receive (hq : w.link.Quiet .rx) (ht : H.Timely) (h1 : len ≠ 0)
    (hl : len ≤ c.maxFrameBytes) (timeout : Nat) :
    ∃ o, (Transceiver.receive c len timeout).Returns H w o ∧
      ∀ ws, o.trace.ReceiveAnswered c len timeout → o.trace.delivered <+: ws →
        o.value = .ok (c.packing.decodeFrame ws len) ∧
        o.trace.accepted .rx = [WordStream.header len] := by
  have fits : c.packing.wordCount len ≤ rxCapacity :=
    Nat.le_trans (wordCount_le _ _) (Nat.le_trans hl (maxFrameBytes_le c))
  obtain ⟨o, ho⟩ := ht.returns (Transceiver.receive c len timeout) w
  refine ⟨o, ho, ?_⟩
  rintro ws answered ⟨more, rfl⟩
  have unreceived : Unreceived w.link [] :=
    ⟨fun _ => ⟨hq.unused, by simp [Trace.Unreported]⟩, rfl, rfl, rfl⟩
  obtain ⟨ok, holds⟩ := ho.ensured
    (receive_answered timeout (hq.unarmed rfl) unreceived h1 hl fits) (.self answered)
  have published := ho.ensured (h := []) (receive_publishes c h1 timeout rfl) (by rw [ok]; rfl)
  have enough := holds.length_delivered fits
  rw [List.nil_append] at ok published enough
  refine ⟨?_, ?_⟩
  · rw [Packing.decodeFrame_append (Nat.le_of_eq enough.symm)]
    exact ok
  · exact (accepted_eq_handed (d := .rx) (by simp)).trans published

end Quiet

/-- The two modes agree. A frame that both can carry is sent in both with one taking of the token
and one notification, and the engine is started on the very words that the FIFO takes. From words
enough for a frame of some length both receive the same frame of that length, after the same single
bit count. The words alone determine the frame, whatever the buffers held before. -/
theorem modes_agree (H : Hardware σ) (H' : Hardware τ) (ht : H.Timely) (ht' : H'.Timely)
    (s : Session σ) (s' : Session τ) (hm : s.config.mode = .dma) (hm' : s'.config.mode = .fifo) :
    (∀ bytes timeout timeout', 1 ≤ bytes.length → bytes.length ≤ 16 →
      s.world.link.Quiet .tx → s'.world.link.Quiet .tx →
      ∃ words o o', WordStream.encode bytes 16 = .ok words ∧
        (send s.config bytes timeout).Returns H s.world o ∧
        (send s'.config bytes timeout').Returns H' s'.world o' ∧
        (o.trace.SendAnswered s.config words.length timeout →
          o'.trace.SendAnswered s'.config words.length timeout' →
          o.value = .ok () ∧ o'.value = .ok () ∧
          o.trace.tokens = [.taken, .notified] ∧ o'.trace.tokens = [.taken, .notified] ∧
          o.trace.launched = [words] ∧ o'.trace.accepted .tx = words)) ∧
    (∀ n timeout timeout' ws, 1 ≤ n → n ≤ 16 → s.config.packing = s'.config.packing →
      s.config.packing.wordCount n ≤ ws.length →
      s.world.link.Quiet .rx → s'.world.link.Quiet .rx →
      ∃ o o', (receive s.config n timeout).Returns H s.world o ∧
        (receive s'.config n timeout').Returns H' s'.world o' ∧
        (o.trace.ReceiveAnswered s.config n timeout →
          o'.trace.ReceiveAnswered s'.config n timeout' →
          o.trace.delivered <+: ws → o'.trace.delivered <+: ws →
          o.trace.accepted .rx = [WordStream.header n] ∧
          o'.trace.accepted .rx = [WordStream.header n] ∧
          let frame := s.config.packing.decodeFrame ws n
          frame.length = n ∧ o.value = .ok frame ∧ o'.value = .ok frame)) := by
  have limit : s.config.maxFrameBytes = 16 := by simp [LinkConfig.maxFrameBytes, hm,
    TransferMode.maxFrameBytes]
  have limit' : s'.config.maxFrameBytes = 32 := by simp [LinkConfig.maxFrameBytes, hm',
    TransferMode.maxFrameBytes]
  refine ⟨?_, ?_⟩
  · intro bytes timeout timeout' h1 hl hq hq'
    have some : bytes ≠ [] := by
      rintro rfl
      simp at h1
    have he := encode_eq_ok s.config some (by omega)
    have he' := encode_eq_ok s'.config some (by omega)
    obtain ⟨o, ho, sent⟩ := hq.send ht he (by simp) timeout
    obtain ⟨o', ho', sent'⟩ := hq'.send ht' he' (by simp) timeout'
    rw [limit] at he
    refine ⟨_, o, o', he, ho, ho', ?_⟩
    intro answered answered'
    obtain ⟨ok, tokens, launched, -⟩ := sent answered
    obtain ⟨ok', tokens', -, accepted⟩ := sent' answered'
    exact ⟨ok, ok', tokens, tokens', launched hm, accepted hm'⟩
  · intro n timeout timeout' ws h1 hl hp hw hq hq'
    have fits : n ≤ s.config.maxFrameBytes := by omega
    have fits' : n ≤ s'.config.maxFrameBytes := by omega
    obtain ⟨o, ho, received⟩ := hq.receive ht (by omega) fits timeout
    obtain ⟨o', ho', received'⟩ := hq'.receive ht' (by omega) fits' timeout'
    refine ⟨o, o', ho, ho', ?_⟩
    intro answered answered' comes comes'
    obtain ⟨ok, published⟩ := received ws answered comes
    obtain ⟨ok', published'⟩ := received' ws answered' comes'
    refine ⟨published, published', Packing.length_decodeFrame hw (by omega), ok, ?_⟩
    rw [hp]
    exact ok'

/-- Three words of samples, for an engine and through the FIFO. -/
def threeSamples : Bench.Script where
  rx := {
    pulls := ⟨[none, some 0x03ffff00, some 0xe0000000, some 0x00249249], none⟩
    deliveries := ⟨[[0x03ffff00, 0xe0000000, 0x00249249]], []⟩
    programCounter := 9
    origin := 5 }

/-- An engine over stale buffers, and a FIFO over zeroed ones. -/
theorem modes_agree_stale :
    let link : Link := { staged := Vector.replicate _ 7, received := Vector.replicate _ 0xffffffff }
    let dma : Session Bench.Script :=
      ⟨{ packing := .two, busTurnTimeout := 4 }, link, threeSamples⟩
    let fifo : Session Bench.Script :=
      ⟨{ mode := .fifo, packing := .two, busTurnTimeout := 4 }, {}, threeSamples⟩
    (∃ o o', (send dma.config [0x41, 0x02] 10).Returns prompt dma.world o ∧
      (send fifo.config [0x41, 0x02] 10).Returns prompt fifo.world o' ∧
      o.value = .ok () ∧ o'.value = .ok () ∧ o.trace.launched = [[0x0000000f, 0x41020000]] ∧
      o'.trace.accepted .tx = [0x0000000f, 0x41020000]) ∧
    (∃ o o', (receive dma.config 3 10).Returns prompt dma.world o ∧
      (receive fifo.config 3 10).Returns prompt fifo.world o' ∧
      ∃ f, f.bytes = [0x3f, 0xf8, 0x80] ∧ o.value = .ok f ∧ o'.value = .ok f) := by
  intro link dma fifo
  obtain ⟨sends, receives⟩ := modes_agree prompt prompt prompt_timely prompt_timely dma fifo rfl rfl
  have quiet : ∀ d, dma.world.link.Quiet d := by
    rintro (_ | _) <;> exact ⟨rfl, rfl, fun _ => rfl⟩
  have quiet' : ∀ d, fifo.world.link.Quiet d := by
    rintro (_ | _) <;> exact ⟨rfl, rfl, fun _ => rfl⟩
  refine ⟨?_, ?_⟩
  · obtain ⟨words, o, o', he, ho, ho', agree⟩ :=
      sends [0x41, 0x02] 10 10 (by decide) (by decide) (quiet .tx) (quiet' .tx)
    cases Except.ok.inj he
    obtain ⟨ok, ok', -, -, launched, accepted⟩ := agree
      (by rw [ho.trace_eq (by decide +kernel)]; decide +kernel)
      (by rw [ho'.trace_eq (by decide +kernel)]; decide +kernel)
    exact ⟨o, o', ho, ho', ok, ok', launched, accepted⟩
  · obtain ⟨o, o', ho, ho', agree⟩ := receives 3 10 10 [0x03ffff00, 0xe0000000, 0x00249249]
      (by decide) (by decide) rfl (by decide) (quiet .rx) (quiet' .rx)
    obtain ⟨-, -, -, ok, ok'⟩ := agree
      (by rw [ho.trace_eq (by decide +kernel)]; decide +kernel)
      (by rw [ho'.trace_eq (by decide +kernel)]; decide +kernel)
      (by rw [ho.trace_eq (by decide +kernel)]; decide +kernel)
      (by rw [ho'.trace_eq (by decide +kernel)]; decide +kernel)
    exact ⟨o, o', ho, ho', _, by decide +kernel, ok, ok'⟩

end Joybus.Transceiver
