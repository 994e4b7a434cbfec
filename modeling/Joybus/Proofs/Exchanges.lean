import Joybus.Proofs.CutExchange

/-! Exchanges that return: on the receive side they do all or nothing, and they arm it before they
touch the transmit side. -/
namespace Joybus.Transceiver

open Trace

variable {σ : Type} {l : Link} {h : Trace} {c : LinkConfig} {bytes : List Byte}
  {len timeout : Nat}

namespace Event

/-- The transmit side is made to send: the token is taken, words are offered, or the program is
notified. -/
def Transmits : Event → Prop
  | .acted (.command (.clear .tx _)) _ | .acted (.command (.push .tx _)) _
  | .acted (.command (.startTx _)) _ | .acted (.command (.notify .tx)) _ => True
  | _ => False

/-- The receive program takes the bit count of a frame of `len` bytes. -/
def published (len : Nat) : Event := .acted (.command (.push .rx (WordStream.header len))) true

/-- A receive of `len` bytes is noted as armed. -/
def armed (len : Nat) : Event := .acted (.setExpected (some len)) ()

end Event

namespace Trace

/-- After the history `first` came an event of the kind `E`. -/
def After (h first : Trace) (E : Event → Prop) : Prop :=
  ∃ later, h = first ++ later ∧ ∃ e ∈ later, E e

/-- The receive that was armed for `len` bytes is undone: its program was reset since, and where
there is an engine it was stopped. -/
def Undone (m : TransferMode) (len : Nat) (h : Trace) : Prop :=
  ∃ arming, h.After (arming ++ [.armed len]) (·.resets .rx) ∧
    (m = .dma → h.After (arming ++ [.armed len]) (·.stops .rx))

/-- The bit count was taken before anything was sent. -/
def PublishedFirst (len : Nat) (h : Trace) : Prop :=
  h.Each fun pre e => e.Transmits → .published len ∈ pre

theorem after_concat {first : Trace} {E : Event → Prop} {e : Event} (hf : first <+: h) (he : E e) :
    After (h ++ [e]) first E := by
  obtain ⟨later, rfl⟩ := hf
  exact ⟨later ++ [e], by simp, e, by simp, he⟩

end Trace

section Keeping

theorem keeps_beginning (first : Trace) :
    Keeps (fun _ => True) (fun _ => True) fun _ h => first <+: h := by
  refine (Keeps.of_trace (E := fun _ => True) (P := fun h => first <+: h) (fun _ _ => trivial)
    ?_).weaken (fun _ _ _ => trivial) fun _ hd => hd
  intro h e _ hf
  exact hf.trans (List.prefix_append h [e])

theorem keeps_after (first : Trace) (E : Event → Prop) :
    Keeps (fun _ => True) (fun _ => True) fun _ h => h.After first E := by
  refine (Keeps.of_trace (E := fun _ => True) (P := fun h => h.After first E) (fun _ _ => trivial)
    ?_).weaken (fun _ _ _ => trivial) fun _ hd => hd
  rintro h e - ⟨later, rfl, x, hx, he⟩
  exact ⟨later ++ [e], by simp, x, List.mem_append_left _ hx, he⟩

/-- As long as nothing is sent. -/
theorem keeps_publishedFirst (len : Nat) :
    Keeps (fun a => ∀ x, ¬ (Event.acted a x).Transmits) (fun _ => True)
      fun _ => PublishedFirst len := by
  refine .of_trace (E := fun e => ¬ e.Transmits) ?_ ?_
  · intro e he
    cases e with
    | acted a x => exact he.elim
    | _ => exact id
  · intro h e he hp
    exact each_concat.2 ⟨hp, fun ht => (he ht).elim⟩

/-- Once the bit count is taken. -/
theorem keeps_published (len : Nat) : Keeps (fun _ => True) (fun _ => True)
    fun _ h => .published len ∈ h ∧ h.PublishedFirst len := by
  refine (Keeps.of_trace (E := fun _ => True)
    (P := fun h => .published len ∈ h ∧ h.PublishedFirst len) (fun _ _ => trivial)
    ?_).weaken (fun _ _ _ => trivial) fun _ hd => hd
  rintro h e - ⟨hm, hp⟩
  exact ⟨List.mem_append_left _ hm, each_concat.2 ⟨hp, fun _ => hm⟩⟩

/-- The receive side sends nothing. -/
theorem not_transmits_of_rx (a : Action) (ha : a.side = .rx) (x : a.Answer) :
    ¬ (Event.acted a x).Transmits := by
  cases a with
  | command c => cases c <;> simp_all [Action.side, Command.side, Event.Transmits]
  | _ => exact id

end Keeping

section Arming
variable {words : List Word}

/-- A word that the receive program took was pushed with success. -/
theorem mem_of_handed {word : Word} (hw : word ∈ h.handed .rx) :
    .acted (.command (.push .rx word)) true ∈ h := by
  obtain ⟨e, he, hw⟩ := List.mem_flatMap.1 hw
  cases e with
  | acted a x =>
    cases a with
    | command c =>
      cases c with
      | push d taken =>
        cases d <;> cases x <;> simp [Event.handed] at hw
        exact hw ▸ he
      | _ => simp [Event.handed] at hw
    | _ => simp [Event.handed] at hw
  | _ => simp [Event.handed] at hw

theorem publish_handed {undo : List Action} (hh : h.handed .rx = words) :
    (publish c len undo).Ensures
      (fun taken _ h => taken = true → h.handed .rx = words ++ [WordStream.header len])
      (fun _ _ => True) l h := by
  rw [publish, Call.ensures_bind]
  refine (pushWithin_misses _ .rx _ undo).imp ?_
  intro r l h pushed
  cases r with
  | none =>
    intro taken
    cases taken
  | some left =>
    intro _
    rw [← hh]
    exact pushed.2

theorem armDma_records (c : LinkConfig) (len : Nat) (hh : h.handed .rx = words) :
    (armDma c len).Ensures
      (fun r _ h => r = .ok () →
        .armed len ∈ h ∧ h.handed .rx = words ++ [WordStream.header len])
      (fun _ _ => True) l h := by
  have keeps := keeps_handed .rx words
  refine keeps.perform (fun _ => rfl) hh fun n l h hh => ?_
  split
  · exact nofun
  refine keeps.perform (fun _ => rfl) hh fun _ l h hh => ?_
  rw [Call.ensures_bind, Call.ensures_startRx]
  refine keeps.reach_act (fun x => keeps.act (.command (.startRx _)) (fun _ => rfl) x l h hh)
    fun _ l h hh => ?_
  refine keeps.perform (fun _ => rfl) hh fun _ l h hh => ?_
  rw [Call.ensures_bind]
  refine (publish_handed hh).mono ?_ fun _ _ _ => trivial
  intro taken l h published
  cases taken with
  | true =>
    intro _
    exact ⟨List.mem_append_right _ (List.mem_singleton.2 rfl),
      (keeps_handed .rx _).act (.setExpected _) (fun _ => rfl) () l h (published rfl)⟩
  | false =>
    have failed : (do
        Call.performAll (Action.abandon .rx)
        Call.reset .rx
        pure (.error .timedOut) : Call (Except RxError Unit)).Yields (· ≠ .ok ()) :=
      Call.yields_then fun _ => Call.yields_then fun _ => Call.yields_pure (by simp)
    exact failed.ensures.imp fun _ _ _ hf hr => (hf hr).elim

theorem armFifo_records (c : LinkConfig) (len : Nat) (hh : h.handed .rx = words) :
    (armFifo c len).Ensures
      (fun r _ h => r = .ok () →
        .armed len ∈ h ∧ h.handed .rx = words ++ [WordStream.header len])
      (fun _ _ => True) l h := by
  rw [armFifo, Call.ensures_bind]
  refine (publish_handed hh).mono ?_ fun _ _ _ => trivial
  intro taken l h published
  have keeps := keeps_handed .rx (words ++ [WordStream.header len])
  cases taken with
  | true =>
    refine keeps.perform (fun _ => rfl) (published rfl) fun _ l h hh => ?_
    intro _
    exact ⟨List.mem_append_right _ (List.mem_singleton.2 rfl),
      keeps.act (.setExpected _) (fun _ => rfl) () l h hh⟩
  | false =>
    refine keeps_true.perform trivial trivial fun _ l h _ => ?_
    intro armed
    cases armed

/-- A receive that is armed is noted, and unless it is empty the program took its bit count and
nothing else. -/
theorem armReceive_records (c : LinkConfig) (len : Nat) (hh : h.handed .rx = words) :
    (armReceive c len).Ensures
      (fun r _ h => r = .ok () →
        .armed len ∈ h ∧ (len ≠ 0 → h.handed .rx = words ++ [WordStream.header len]))
      (fun _ _ => True) l h := by
  have keeps := keeps_handed .rx words
  unfold armReceive
  split
  · exact nofun
  refine keeps.perform (fun _ => rfl) hh fun expected l h hh => ?_
  split
  · exact nofun
  refine keeps.perform (fun _ => rfl) hh fun status l h hh => ?_
  split
  · exact nofun
  split
  · rename_i hl
    subst hl
    intro _
    exact ⟨List.mem_append_right _ (List.mem_singleton.2 rfl), fun hn => (hn rfl).elim⟩
  · cases hm : c.mode with
    | dma =>
      exact (armDma_records c len hh).imp fun _ _ _ hr ok => ⟨(hr ok).1, fun _ => (hr ok).2⟩
    | fifo =>
      exact (armFifo_records c len hh).imp fun _ _ _ hr ok => ⟨(hr ok).1, fun _ => (hr ok).2⟩

end Arming

/-- Cancelling resets the receive program, and stops its engine where there is one. -/
theorem cancelReceive_after {first : Trace} {n : Nat} (he : l.expected = some n)
    (hp : first <+: h) : (cancelReceive c).Ensures
      (fun _ _ h => h.After first (·.resets .rx) ∧ (c.mode = .dma → h.After first (·.stops .rx)))
      (fun _ _ => False) l h := by
  have resets := keeps_after first (·.resets .rx)
  have stops := keeps_after first (·.stops .rx)
  rw [cancelReceive, Call.ensures_bind, Call.ensures_expected, Action.Ensures, he]
  refine (keeps_beginning first).perform trivial (hp.trans (List.prefix_append _ _))
    fun _ l h hp => ?_
  cases hm : c.mode with
  | fifo =>
    refine resets.reach (fun _ => after_concat hp (by simp)) fun _ l h reset => ?_
    exact ⟨resets.act (.setRx .idle) trivial () l h reset, by simp⟩
  | dma =>
    have halts := stops.and (keeps_beginning first)
    have halted : Action.EnsuresAll (fun _ h => h.After first (·.stops .rx) ∧ first <+: h)
        [.command (.abort .rx), .disarm .rx] l h := by
      have further : ∀ ev, first <+: h ++ ev := fun ev => hp.trans (List.prefix_append h ev)
      refine halts.reach_act (fun _ => ⟨after_concat hp (by simp), further _⟩) fun _ l h hh => ?_
      exact halts.all (by simp) hh
    rw [Call.ensures_bind, Call.ensures_performAll]
    refine halted.mono ?_
    rintro l h ⟨stopped, hp⟩
    have both := resets.and stops
    have stopped := stops.act (.command (.reset .rx)) trivial () l h stopped
    refine both.reach (fun _ => ⟨after_concat hp (by simp), stopped⟩) fun _ l h undone => ?_
    obtain ⟨reset, stopped⟩ := both.act (.setRx .idle) trivial () l h undone
    exact ⟨reset, fun _ => stopped⟩

theorem cancelReceive_undoes {n : Nat} (he : l.expected = some n) (hm : .armed len ∈ h) :
    (cancelReceive c).Ensures (fun _ _ h => h.Undone c.mode len) (fun _ _ => False) l h := by
  obtain ⟨arming, post, rfl⟩ := List.append_of_mem hm
  have armed : arming ++ [.armed len] <+: arming ++ .armed len :: post := ⟨post, by simp⟩
  refine (cancelReceive_after he armed).imp ?_
  intro _ l h undone
  exact ⟨arming, undone⟩

section Exchange
variable {Q : Except ExchangeError Frame → Link → Trace → Prop} {A B R : Link → Trace → Prop}
  {F : TxError → Link → Trace → Prop}

/-- An exchange arms, sends, and then waits for the response, or cancels if the send failed. -/
theorem exchange_ensures (fits : bytes.length ≤ c.maxFrameBytes)
    (arm : (armReceive c len).Ensures (fun r l h => match r with
      | .ok _ => A l h
      | .error e => Q (.error (.rx e)) l h) R l h)
    (sent : ∀ l h, A l h → (send c bytes timeout).Ensures (fun r l h => match r with
      | .ok _ => B l h
      | .error e => F e l h) R l h)
    (cancel : ∀ e l h, F e l h → (cancelReceive c).Ensures (fun _ => Q (.error (.tx e))) R l h)
    (finish : ∀ l h, B l h → (finishReceive c timeout).Ensures (fun r l h => match r with
      | .ok frame => Q (.ok frame) l h
      | .error e => Q (.error (.rx e)) l h) R l h) :
    (exchange c bytes len timeout).Ensures Q R l h := by
  rw [exchange, if_neg (by omega), Call.ensures_bind]
  refine arm.imp ?_
  intro r l h armed
  cases r with
  | error e => exact armed
  | ok =>
    rw [Call.ensures_bind]
    refine (sent l h armed).imp ?_
    intro r l h sent
    cases r with
    | error e =>
      rw [Call.ensures_bind]
      exact cancel e l h sent
    | ok =>
      rw [Call.ensures_bind]
      refine (finish l h sent).imp ?_
      intro r l h finished
      cases r <;> exact finished

/-- An exchange that returns leaves no receive noted, and has undone the one it armed if its send
failed. -/
theorem exchange_settles (hn : Noted l) (he : l.expected = none) :
    (exchange c bytes len timeout).Ensures
      (fun r l h => (l.expected = none ∧ l.rx = .idle) ∧
        ∀ e, r = .error (.tx e) → bytes.length ≤ c.maxFrameBytes → h.Undone c.mode len)
      (fun _ _ => True) l h := by
  by_cases fits : c.maxFrameBytes < bytes.length
  · rw [exchange, if_pos fits]
    exact ⟨⟨he, hn.idle (.inl he)⟩, fun _ _ _ => by omega⟩
  -- From the arming on, and for as long as the send lasts.
  let Waiting (l : Link) (h : Trace) : Prop := (l.expected = some len ∧ Noted l) ∧ .armed len ∈ h
  refine exchange_ensures (A := Waiting) (B := Waiting) (F := fun _ => Waiting) (by omega)
    ?_ ?_ ?_ ?_
  · refine ((armReceive_arms c len hn).and (armReceive_records c len rfl)).mono ?_
      fun _ _ _ => trivial
    rintro r l' h ⟨arms, records⟩
    cases r with
    | error e =>
      obtain ⟨expected, idle, -⟩ := arms
      exact ⟨⟨expected.trans he, idle.trans (hn.idle (.inl he))⟩, by simp⟩
    | ok =>
      obtain ⟨noted, expected, -⟩ := arms.noted hn
      exact ⟨⟨expected rfl, noted⟩, (records rfl).1⟩
  · rintro l h ⟨⟨expected, noted⟩, armed⟩
    have kept := (keeps_expected (some len)).onSide (h := h) (send_onSide c bytes timeout)
      not_setExpected_of_tx trivial expected
    have records := (keeps_mem (· = .armed len)).always (l := l) (send c bytes timeout)
      ⟨_, armed, rfl⟩
    refine ((kept.and (kept_noted.send c bytes timeout l h noted)).and records).mono ?_
      fun _ _ _ => trivial
    rintro r l h ⟨notes, _, armed, rfl⟩
    cases r <;> exact ⟨notes, armed⟩
  · rintro e l h ⟨⟨expected, noted⟩, armed⟩
    refine ((cancelReceive_undoes expected armed).and
      ((cancelReceive_clears c).and (cancelReceive_notes c noted))).mono ?_ fun _ _ hf => hf.1.elim
    rintro _ l h ⟨undone, unarmed, noted⟩
    exact ⟨⟨unarmed, noted.idle (.inl unarmed)⟩, fun _ _ _ => undone⟩
  · rintro l h ⟨⟨-, noted⟩, -⟩
    refine (finishReceive_notes c timeout noted).mono ?_ fun _ _ _ => trivial
    intro r l h unarmed
    cases r <;> exact ⟨unarmed, by simp⟩

/-- Whatever is sent in an exchange is sent after the bit count is taken. -/
theorem exchange_publishedFirst (hl : len ≠ 0) (hp : h.PublishedFirst len) :
    (exchange c bytes len timeout).Ensures (fun _ _ => PublishedFirst len)
      (fun _ => PublishedFirst len) l h := by
  by_cases fits : c.maxFrameBytes < bytes.length
  · rw [exchange, if_pos fits]
    exact hp
  let Published (_ : Link) (h : Trace) : Prop := .published len ∈ h ∧ h.PublishedFirst len
  have keeps := keeps_published len
  refine exchange_ensures (A := Published) (B := Published) (F := fun _ => Published) (by omega)
    ?_ ?_ ?_ ?_
  · have silent := (keeps_publishedFirst len).onSide (l := l) (armReceive_onSide c len)
      not_transmits_of_rx trivial hp
    refine (silent.and (armReceive_records c len rfl)).mono ?_ fun _ _ hr => hr.1
    rintro r l h ⟨first, records⟩
    cases r with
    | error e => exact first
    | ok =>
      have handed := (records rfl).2 hl
      exact ⟨mem_of_handed (by simp [handed]), first⟩
  · intro l h published
    refine (keeps.always (send c bytes timeout) published).mono ?_ fun _ _ hr => hr.2
    intro r l h published
    cases r <;> exact published
  · intro e l h published
    exact (keeps.always (cancelReceive c) published).mono (fun _ _ _ hr => hr.2) fun _ _ hr => hr.2
  · intro l h published
    refine (keeps.always (finishReceive c timeout) published).mono ?_ fun _ _ hr => hr.2
    intro r l h published
    cases r <;> exact published.2

end Exchange

/-- Nothing is asked of a direction. -/
def anyPhases (d : Direction) : Phases d where
  free _ _ := True
  checked _ _ := True
  armed _ _ := True
  busy _ _ := True
  keeps_free := keeps_any d
  keeps_checked := keeps_any d
  keeps_busy := keeps_any_avoiding d
  free_of_checked _ _ _ := trivial
  busy_of_free _ _ _ := trivial
  check _ _ _ _ := trivial
  arm _ _ _ := trivial
  note _ _ _ _ _ _ := trivial
  start _ _ _ _ _ _ := trivial
  stop _ _ _ _ := trivial
  consume _ _ _ _ _ := trivial

/-- The receive cell is used for transfers alone; of the transmit side nothing is asked. -/
def receiveCell : (d : Direction) → Phases d
  | .tx => anyPhases .tx
  | .rx => unusedCells .rx

theorem kept_receiveCell : Kept (Phases.Resting receiveCell) := by
  refine Phases.kept_resting receiveCell ?_
  intro d l h hf
  cases d <;> exact hf

/-- An exchange leaves the receive cell unused, if no receive stays armed. -/
theorem exchange_unused (hs : l.status .rx = .notStarted) :
    (exchange c bytes len timeout).Ensures
      (fun _ l h => h.Solicited → l.expected = none → l.status .rx = .notStarted)
      (fun _ _ => True) l [] := by
  have rests : Phases.Resting receiveCell c l [] := ⟨trivial, .inl fun _ => hs⟩
  refine (kept_receiveCell.exchange rests bytes len timeout).mono ?_ fun _ _ _ => trivial
  rintro _ l h ⟨-, rests⟩ hs he
  exact rests.free (not_receiving_of_none he) hs

/-- While a receive is armed an exchange is refused at once, and nothing is changed. -/
theorem exchange_refused (H : Hardware σ) {w : World σ} {n : Nat} (he : w.link.expected = some n)
    (fits : bytes.length ≤ c.maxFrameBytes) (hl : len ≤ c.maxFrameBytes) (polls : Nat) :
    (exchange c bytes len timeout).drive H w (polls + 1) =
      ⟨.finished (.error (.rx .busy)) (polls + 1), w, [.acted .expected (some n)]⟩ := by
  have busy : (armReceive c len).advance H w =
      ⟨.finished (.error .busy), w, [.acted .expected (some n)]⟩ := by
    rw [armReceive, if_neg (by omega), Call.advance_bind]
    simp [Call.expected, Call.perform, Call.advance, Hardware.perform, World.settle, World.update,
      Outcome.after, he]
  have refused : (exchange c bytes len timeout).advance H w =
      ⟨.finished (.error (.rx .busy)), w, [.acted .expected (some n)]⟩ := by
    rw [exchange, if_neg (by omega), Call.advance_bind, busy]
    simp [Call.advance, Outcome.after]
  rw [Call.drive, refused]
  rfl

/-- On the receive side an exchange that returns does all or nothing. From a quiet receive side it
leaves it quiet, and if its send failed the receive that it had armed is undone. While a receive is
armed it is refused, and nothing has changed: the receive is finished as it would have been. In
every exchange that expects a response the bit count is taken before anything is sent. -/
theorem exchange_all_or_nothing (H : Hardware σ) (s : Session σ) (bytes : List Byte)
    (len timeout polls : Nat) :
    let o := s.drive H (exchange · bytes len timeout) polls
    (s.world.link.Quiet .rx → o.trace.Solicited → ∀ r left, o.value = .finished r left →
      o.world.link.Quiet .rx ∧
      ∀ e, r = .error (.tx e) → bytes.length ≤ s.config.maxFrameBytes →
        o.trace.Undone s.config.mode len) ∧
    (∀ n, s.world.link.expected = some n → bytes.length ≤ s.config.maxFrameBytes →
      len ≤ s.config.maxFrameBytes → 0 < polls →
      o = ⟨.finished (.error (.rx .busy)) polls, s.world, [.acted .expected (some n)]⟩ ∧
      ∀ deadline k, ({ s with world := o.world } : Session σ).drive H (finishReceive · deadline) k =
        s.drive H (finishReceive · deadline) k) ∧
    (1 ≤ len → o.trace.Each fun pre e => e.Transmits →
      .acted (.command (.push .rx (WordStream.header len))) true ∈ pre) := by
  intro o
  refine ⟨?_, ?_, ?_⟩
  · intro quiet solicited r left value
    have unused := Call.Ensures.finished H (exchange_unused quiet.unused) value solicited
    obtain ⟨⟨unarmed, idle⟩, undone⟩ := Call.Ensures.finished (h := []) H
      (exchange_settles (noted_of_idle quiet.idle) (quiet.unarmed rfl)) value
    exact ⟨⟨idle, unused unarmed, fun _ => unarmed⟩, undone⟩
  · intro n he fits hl hp
    obtain ⟨polls, rfl⟩ := Nat.exists_eq_add_of_le' hp
    have refused : o = _ := exchange_refused H he fits hl polls
    refine ⟨refused, ?_⟩
    intro deadline k
    rw [refused]
  · intro hl
    have first : PublishedFirst len [] := each_nil
    exact Call.Ensures.keeps H (exchange_publishedFirst (by omega) first) first polls

/-- The bus turn never comes: an exchange fails in its send, and the receive that it had armed is
undone. While another receive is armed it is refused. -/
theorem exchange_all_or_nothing_silent :
    let s : Session Bench.Script := Session.start { busTurnTimeout := 4 } silent
    let o := s.drive prompt (exchange · [0x01] 2 10) 1
    let armed := (s.run prompt [.request (.arm 3) 1]).2
    s.world.link.Quiet .rx ∧ o.trace.Solicited ∧
      o.value = .finished (.error (.tx .timedOut)) 1 ∧ o.world.link.Quiet .rx ∧
      o.trace.Undone .dma 2 ∧ armed.world.link.expected = some 3 ∧
      (armed.drive prompt (exchange · [0x01] 2 10) 1).world = armed.world := by
  intro s o armed
  have quiet : s.world.link.Quiet .rx := ⟨rfl, rfl, fun _ => rfl⟩
  have solicited : o.trace.Solicited := by decide +kernel
  have value : o.value = .finished (.error (.tx .timedOut)) 1 := by decide +kernel
  have expected : armed.world.link.expected = some 3 := by decide +kernel
  obtain ⟨returns, -, -⟩ := exchange_all_or_nothing prompt s [0x01] 2 10 1
  obtain ⟨still, undone⟩ := returns quiet solicited _ 1 value
  obtain ⟨-, refused, -⟩ := exchange_all_or_nothing prompt armed [0x01] 2 10 1
  obtain ⟨eq, -⟩ := refused 3 expected (by decide) (by decide) (by decide)
  exact ⟨quiet, solicited, value, still, undone .timedOut rfl (by decide), expected,
    congrArg Outcome.world eq⟩

end Joybus.Transceiver
