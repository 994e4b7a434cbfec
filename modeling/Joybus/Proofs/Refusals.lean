import Joybus.Proofs.Driving
import Joybus.Proofs.Endings
import Joybus.Proofs.Invariants

/-! Calls that are refused: they have looked at the state and done nothing. -/
namespace Joybus.Transceiver

variable {α β ε σ : Type} {l : Link} {h first : Trace} {c : LinkConfig}

section Results

/-- Every result the call may end with is in `S`. -/
def Call.Yields (S : α → Prop) : Call α → Prop
  | .done a => S a
  | .act _ next => ∀ x, (next x).Yields S
  | .wait _ _ next => ∀ x, (next x).Yields S

/-- A call yields what follows it yields, whatever it answers. -/
theorem Call.yields_then {S : β → Prop} {call : Call α} {f : α → Call β}
    (hf : ∀ a, (f a).Yields S) : (call >>= f).Yields S := by
  induction call with
  | done a => exact hf a
  | act a next ih => exact ih
  | wait p undo next ih => exact ih

theorem Call.yields_pure {S : α → Prop} {a : α} (ha : S a) : (pure a : Call α).Yields S := ha

theorem Call.Yields.mono {S S' : α → Prop} {call : Call α} (hc : call.Yields S)
    (hs : ∀ a, S a → S' a) : call.Yields S' := by
  induction call with
  | done a => exact hs a hc
  | act a next ih => exact fun x => ih x (hc x)
  | wait p undo next ih => exact fun x => ih x (hc x)

theorem Call.Yields.ensures {S : α → Prop} {call : Call α} (hc : call.Yields S) :
    call.Ensures (fun a _ _ => S a) (fun _ _ => True) l h := by
  induction call generalizing l h with
  | done a => exact hc
  | act a next ih => exact keeps_true.reach_act (fun _ => trivial) fun x _ _ _ => ih x (hc x)
  | wait p undo next ih =>
    refine (keeps_true.wait (p := p) ?_ trivial).mono (fun _ _ _ => ensuresAll_true)
      fun x _ _ _ => ih x (hc x)
    cases p <;> trivial

/-- Whether the error that a result brings, if it brings one, may be gone at the next try. -/
def retryable? (retryable : ε → Bool) : Except ε α → Option Bool
  | .error e => some (retryable e)
  | .ok _ => none

/-- The result is an error that the same call would run into again. -/
def Refused (retryable : ε → Bool) (r : Except ε α) : Prop := retryable? retryable r = some false

/-- Where no refusal is left, anything may be promised of one. -/
theorem Call.Yields.unrefused {retryable : ε → Bool} {call : Call (Except ε α)}
    {K : Except ε α → Link → Trace → Prop} (hc : call.Yields (¬ Refused retryable ·)) :
    call.Ensures (fun r l h => Refused retryable r → K r l h) (fun _ _ => True) l h :=
  hc.ensures.imp fun _ _ _ hn hr => (hn hr).elim

theorem sendDma_unrefused (words : List Word) (timeout : Nat) :
    (sendDma words timeout).Yields (¬ Refused TxError.retryable ·) := by
  refine Call.yields_then fun _ => Call.yields_then fun _ => Call.yields_then fun _ =>
    Call.yields_then fun _ => Call.yields_then fun _ => Call.yields_then fun _ =>
    Call.yields_then ?_
  intro r
  cases r with
  | none => exact Call.yields_then fun _ => Call.yields_then fun _ => Call.yields_pure nofun
  | some r =>
    cases r with
    | done => exact Call.yields_then fun _ => Call.yields_pure nofun
    | error => exact Call.yields_then fun _ => Call.yields_then fun _ => Call.yields_pure nofun

theorem sendFifo_unrefused (c : LinkConfig) (words : List Word) (timeout : Nat) :
    (sendFifo c words timeout).Yields (¬ Refused TxError.retryable ·) := by
  refine Call.yields_then fun _ => Call.yields_then ?_
  intro rest
  cases rest with
  | nil => exact Call.yields_then fun _ => Call.yields_then fun _ => Call.yields_pure nofun
  | cons word rest =>
    refine Call.yields_then fun _ => Call.yields_then fun _ => Call.yields_then ?_
    intro fed
    cases fed with
    | false => exact Call.yields_then fun _ => Call.yields_pure nofun
    | true => exact Call.yields_then fun _ => Call.yields_pure nofun

theorem armFifo_unrefused (c : LinkConfig) (len : Nat) :
    (armFifo c len).Yields (¬ Refused RxError.retryable ·) := by
  refine Call.yields_then ?_
  intro published
  cases published with
  | false => exact Call.yields_then fun _ => Call.yields_pure nofun
  | true => exact Call.yields_then fun _ => Call.yields_then fun _ => Call.yields_pure nofun

theorem finishDma_unrefused (c : LinkConfig) (len timeout : Nat) :
    (finishDma c len timeout).Yields (¬ Refused RxError.retryable ·) := by
  refine Call.yields_then fun _ => Call.yields_then ?_
  intro r
  cases r with
  | none => exact Call.yields_then fun _ => Call.yields_then fun _ => Call.yields_pure nofun
  | some r =>
    cases r with
    | done => exact Call.yields_then fun _ => Call.yields_then fun _ => Call.yields_pure nofun
    | error => exact Call.yields_then fun _ => Call.yields_then fun _ => Call.yields_pure nofun

theorem finishFifo_unrefused (c : LinkConfig) (len timeout : Nat) :
    (finishFifo c len timeout).Yields (¬ Refused RxError.retryable ·) := by
  refine Call.yields_then fun _ => Call.yields_then ?_
  intro all
  cases all with
  | false => exact Call.yields_then fun _ => Call.yields_pure nofun
  | true => exact Call.yields_then fun _ => Call.yields_then fun _ => Call.yields_pure nofun

end Results

section Reading

/-- An action that looks at the link or at the size of an engine, and does nothing. -/
def Action.Reads : Action → Prop
  | .capacity _ | .status _ | .txState | .expected | .staged _ | .fetch _ => True
  | _ => False

def Event.Reads : Event → Prop
  | .acted a _ => a.Reads
  | .marked _ _ | .consumed _ | .delayed _ => False

/-- A command is given to the hardware. -/
def Event.commands : Event → Bool
  | .acted (.command _) _ => true
  | _ => false

/-- Since the history `first` there was nothing but reading. -/
def Trace.ReadsSince (first h : Trace) : Prop := ∃ reads, h = first ++ reads ∧ ∀ e ∈ reads, e.Reads

theorem Event.Reads.not_commands {e : Event} (he : e.Reads) : ¬ e.commands := by
  cases e with
  | acted a x =>
    cases a with
    | command c => exact he.elim
    | _ => exact nofun
  | _ => exact nofun

theorem Trace.readsSince_refl (h : Trace) : h.ReadsSince h := ⟨[], by simp, by simp⟩

theorem Trace.ReadsSince.concat {e : Event} (hr : first.ReadsSince h) (he : e.Reads) :
    first.ReadsSince (h ++ [e]) := by
  obtain ⟨reads, rfl, hs⟩ := hr
  exact ⟨reads ++ [e], by simp, by simpa [or_imp, forall_and] using ⟨hs, he⟩⟩

theorem Hardware.perform_reads {H : Hardware σ} {w : World σ} {a : Action} (ha : a.Reads) :
    (H.perform w a).world = w := by
  cases a with
  | capacity d | status d | txState | expected | staged n | fetch n => rfl
  | _ => exact ha.elim

theorem Hardware.acted_mem_perform (H : Hardware σ) (w : World σ) (a : Action) :
    ∃ x, .acted a x ∈ (H.perform w a).trace := by
  cases a <;> exact ⟨_, List.mem_cons_self⟩

/-- A wait is entered by a look at a cell or the beginning of a delay. -/
theorem Hardware.not_reads_enter (H : Hardware σ) (w : World σ) (p : Wait) :
    ∃ e ∈ (H.enter w p).trace, ¬ e.Reads := by
  cases p with
  | nap us => exact ⟨.delayed us, List.mem_cons_self, id⟩
  | completion d us =>
    simp only [enter, World.pollCompletion, World.lookAtCell_eq]
    cases hr : (w.link.status d).report? with
    | some r => exact ⟨.consumed ⟨d, r⟩, List.mem_cons_self, id⟩
    | none =>
      refine ⟨.delayed us, ?_, id⟩
      simp only
      split <;> simp [Outcome.after, Outcome.map, beginDelay, consumption]

open Position (Reaches)

/-- A call that has only read has changed nothing. -/
theorem Position.Reaches.unchanged {H : Hardware σ} {call : Call α} {w w' : World σ}
    {t : Position α} {tr : Trace} (hr : Reaches H (.running call) w tr t w')
    (reads : ∀ e ∈ tr, e.Reads) : w' = w := by
  generalize hs : Position.running call = s at hr
  induction hr generalizing call with
  | refl => rfl
  | head first _ ih =>
    obtain ⟨begins, goes⟩ := List.forall_mem_append.1 reads
    cases first with
    | act a next =>
      obtain ⟨x, hx⟩ := H.acted_mem_perform _ a
      have looks : a.Reads := begins _ hx
      exact (ih goes rfl).trans (Hardware.perform_reads looks)
    | pass p | stop p =>
      obtain ⟨e, he, idle⟩ := H.not_reads_enter _ p
      exact (idle (begins e he)).elim
    | resume | stay => cases hs

theorem Call.drive_untouched {H : Hardware σ} {call : Call α} {w : World σ} {polls left : Nat}
    {a : α} (hv : (call.drive H w polls).value = .finished a left)
    (hr : Trace.ReadsSince [] (call.drive H w polls).trace) :
    (call.drive H w polls).world = w ∧ ∀ e ∈ (call.drive H w polls).trace, e.Reads := by
  obtain ⟨reads, ht, hs⟩ := hr
  rw [List.nil_append] at ht
  rw [← ht] at hs
  exact ⟨(Call.drive_reaches hv).unchanged hs, hs⟩

end Reading

section Requests
variable {len timeout : Nat}

theorem sendWords_refused (words : List Word) (timeout : Nat) (hf : first.ReadsSince h) :
    (sendWords c words timeout).Ensures
      (fun r _ h => Refused TxError.retryable r → first.ReadsSince h ∧ r = .error .busy ∧
        ¬ (l.tx = .idle ∧ l.status .tx = .notStarted))
      (fun _ _ => True) l h := by
  rw [sendWords, Call.ensures_bind, Call.ensures_txState, Action.Ensures]
  split
  · rename_i busy
    exact fun _ => ⟨hf.concat trivial, rfl, fun ready => busy ready.1⟩
  rw [Call.ensures_bind, Call.ensures_status, Action.Ensures]
  split
  · rename_i used
    exact fun _ => ⟨.concat (.concat hf trivial) trivial, rfl, fun ready => used ready.2⟩
  refine Call.Yields.unrefused (Call.yields_then ?_)
  intro taken
  cases taken with
  | false => exact Call.yields_pure nofun
  | true =>
    cases hm : c.mode with
    | dma => exact sendDma_unrefused words timeout
    | fifo => exact sendFifo_unrefused c words timeout

/-- A send that is refused has only read, and it is refused as busy only while the transmit side is
not free. -/
theorem send_refused (c : LinkConfig) (bytes : List Byte) (timeout : Nat)
    (hf : first.ReadsSince h) :
    (send c bytes timeout).Ensures
      (fun r _ h => Refused TxError.retryable r → first.ReadsSince h ∧
        (r = .error .busy → ¬ (l.tx = .idle ∧ l.status .tx = .notStarted)))
      (fun _ _ => True) l h := by
  have handed {words : List Word} {h : Trace} (hf : first.ReadsSince h) :
      (sendWords c words timeout).Ensures
        (fun r _ h => Refused TxError.retryable r → first.ReadsSince h ∧
          (r = .error .busy → ¬ (l.tx = .idle ∧ l.status .tx = .notStarted)))
        (fun _ _ => True) l h := by
    refine (sendWords_refused words timeout hf).imp ?_
    intro r _ h refused hr
    obtain ⟨reads, -, unready⟩ := refused hr
    exact ⟨reads, fun _ => unready⟩
  unfold send
  split
  · rename_i e _
    cases e
    exact fun _ => ⟨hf, nofun⟩
  · exact nofun
  · cases hm : c.mode with
    | fifo => exact handed hf
    | dma =>
      rw [Call.ensures_bind, Call.ensures_capacity]
      intro n
      split
      · exact fun _ => ⟨hf.concat trivial, nofun⟩
      · exact handed (hf.concat trivial)

/-- What is left of arming once the engine is known to be large enough fails in passing if at all. -/
theorem armDma_refused (c : LinkConfig) (len : Nat) (hf : first.ReadsSince h) :
    (armDma c len).Ensures
      (fun r _ h => Refused RxError.retryable r → first.ReadsSince h ∧ r = .error .frameTooLong)
      (fun _ _ => True) l h := by
  rw [armDma, Call.ensures_bind, Call.ensures_capacity]
  intro n
  split
  · exact fun _ => ⟨hf.concat trivial, rfl⟩
  refine Call.Yields.unrefused (Call.yields_then fun _ => Call.yields_then fun _ =>
    Call.yields_then fun _ => Call.yields_then ?_)
  intro published
  cases published with
  | false => exact Call.yields_then fun _ => Call.yields_then fun _ => Call.yields_pure nofun
  | true => exact Call.yields_then fun _ => Call.yields_pure nofun

/-- Arming that is refused has only read, and it is refused as busy only while the receive side is
not free. -/
theorem armReceive_refused (c : LinkConfig) (len : Nat) (hf : first.ReadsSince h) :
    (armReceive c len).Ensures
      (fun r _ h => Refused RxError.retryable r → first.ReadsSince h ∧
        (r = .error .busy → ¬ (l.expected = none ∧ l.status .rx = .notStarted)))
      (fun _ _ => True) l h := by
  unfold armReceive
  split
  · exact fun _ => ⟨hf, nofun⟩
  rw [Call.ensures_bind, Call.ensures_expected, Action.Ensures]
  split
  · rename_i armed
    exact fun _ => ⟨hf.concat trivial, fun _ free => by simp [free.1] at armed⟩
  rw [Call.ensures_bind, Call.ensures_status, Action.Ensures]
  split
  · rename_i used
    exact fun _ => ⟨.concat (.concat hf trivial) trivial, fun _ free => used free.2⟩
  split
  · exact nofun
  have reads := Trace.ReadsSince.concat (e := .acted (.status .rx) (l.status .rx))
    (.concat (e := .acted .expected l.expected) hf trivial) trivial
  cases hm : c.mode with
  | fifo => exact (armFifo_unrefused c len).unrefused
  | dma =>
    refine (armDma_refused c len reads).imp ?_
    intro r _ h refused hr
    obtain ⟨reads, rfl⟩ := refused hr
    exact ⟨reads, nofun⟩

/-- A wait for a receive that is refused found none armed. -/
theorem finishReceive_refused (c : LinkConfig) (timeout : Nat) (hf : first.ReadsSince h) :
    (finishReceive c timeout).Ensures
      (fun r _ h => Refused RxError.retryable r → first.ReadsSince h ∧ r = .error .notArmed ∧
        l.expected = none)
      (fun _ _ => True) l h := by
  rw [finishReceive, Call.ensures_bind, Call.ensures_expected, Action.Ensures]
  cases he : l.expected with
  | none => exact fun _ => ⟨hf.concat trivial, rfl, rfl⟩
  | some len =>
    refine Call.Yields.unrefused (Call.yields_then fun _ => ?_)
    split
    · exact Call.yields_pure nofun
    cases hm : c.mode with
    | dma => exact finishDma_unrefused c len timeout
    | fifo => exact finishFifo_unrefused c len timeout

theorem publish_then {undo : List Action} {len : Nat} {f : Bool → Call β}
    {Q : β → Link → Trace → Prop}
    (hf : ∀ taken l h, (f taken).Ensures Q (fun _ _ => True) l h) :
    (publish c len undo >>= f).Ensures Q (fun _ _ => True) l h := by
  have taken : (publish c len undo).Yields fun _ => True :=
    Call.yields_then fun _ => Call.yields_pure trivial
  rw [Call.ensures_bind]
  exact taken.ensures.imp fun taken l h _ => hf taken l h

theorem armFifo_expects (c : LinkConfig) (len : Nat) :
    (armFifo c len).Ensures (fun r l _ => r = .ok () → l.expected = some len)
      (fun _ _ => True) l h := by
  refine publish_then fun taken l h => ?_
  cases taken with
  | true => exact keeps_true.perform trivial trivial fun _ _ _ _ _ => rfl
  | false => exact keeps_true.perform trivial trivial fun _ _ _ _ => nofun

theorem armDma_expects (c : LinkConfig) (len : Nat) :
    (armDma c len).Ensures (fun r l _ => r = .ok () → l.expected = some len)
      (fun _ _ => True) l h := by
  refine keeps_true.perform trivial trivial fun n l h _ => ?_
  split
  · exact nofun
  refine keeps_true.perform trivial trivial fun _ l h _ => ?_
  rw [Call.ensures_bind, Call.ensures_startRx]
  refine keeps_true.reach_act (fun _ => trivial) fun _ l h _ => ?_
  refine keeps_true.perform trivial trivial fun _ l h _ => publish_then fun taken l h => ?_
  cases taken with
  | true => exact fun _ => rfl
  | false =>
    rw [if_neg (by simp), Call.ensures_bind, Call.ensures_performAll]
    refine ensuresAll_true.mono fun l h _ => ?_
    exact keeps_true.perform trivial trivial fun _ _ _ _ => nofun

/-- A receive that is armed is noted with its length. -/
theorem armReceive_expects (c : LinkConfig) (len : Nat) :
    (armReceive c len).Ensures (fun r l _ => r = .ok () → l.expected = some len)
      (fun _ _ => True) l h := by
  unfold armReceive
  split
  · exact nofun
  refine keeps_true.perform trivial trivial fun expected l h _ => ?_
  split
  · exact nofun
  refine keeps_true.perform trivial trivial fun status l h _ => ?_
  split
  · exact nofun
  split
  · rename_i empty
    rw [empty]
    exact fun _ => rfl
  cases hm : c.mode with
  | fifo => exact armFifo_expects c len
  | dma => exact armDma_expects c len

theorem receive_refused (c : LinkConfig) (len timeout : Nat) (hf : first.ReadsSince h) :
    (receive c len timeout).Ensures
      (fun r _ h => Refused RxError.retryable r → first.ReadsSince h) (fun _ _ => True) l h := by
  rw [receive, Call.ensures_bind]
  refine ((armReceive_refused c len hf).and (armReceive_expects c len)).mono ?_ fun _ _ hr => hr.1
  rintro r l h ⟨refused, expects⟩
  cases r with
  | error e =>
    intro hr
    exact (refused hr).1
  | ok =>
    refine (finishReceive_refused c timeout (Trace.readsSince_refl h)).imp ?_
    intro r _ h unarmed hr
    obtain ⟨-, -, none⟩ := unarmed hr
    rw [expects rfl] at none
    cases none

end Requests

@[inherit_doc Transceiver.retryable?]
def Reply.retryable? : Reply → Option Bool
  | .sent r => Transceiver.retryable? TxError.retryable r
  | .armed r => Transceiver.retryable? RxError.retryable r
  | .received r => Transceiver.retryable? RxError.retryable r
  | .exchanged r => Transceiver.retryable? ExchangeError.retryable r

/-- A request of one direction that is refused has only read. -/
theorem Request.refused {r : Request} (hr : ∀ bytes len timeout, r ≠ .exchange bytes len timeout)
    (c : LinkConfig) : (r.call c).Ensures
      (fun reply _ h => reply.retryable? = some false → Trace.ReadsSince [] h)
      (fun _ _ => True) l [] := by
  have start := Trace.readsSince_refl []
  cases r with
  | send bytes timeout =>
    rw [Request.call, Call.ensures_map]
    refine (send_refused c bytes timeout start).imp ?_
    intro r _ h refused hr
    exact (refused hr).1
  | arm len =>
    rw [Request.call, Call.ensures_map]
    refine (armReceive_refused c len start).imp ?_
    intro r _ h refused hr
    exact (refused hr).1
  | finish timeout =>
    rw [Request.call, Call.ensures_map]
    refine (finishReceive_refused c timeout start).imp ?_
    intro r _ h refused hr
    exact (refused hr).1
  | receive len timeout =>
    rw [Request.call, Call.ensures_map]
    refine (receive_refused c len timeout start).imp ?_
    intro r _ h refused hr
    exact refused hr
  | exchange bytes len timeout => exact (hr bytes len timeout rfl).elim

/-- Refused calls touch nothing. From any state, over any hardware: a send, an arming, a wait for an
armed receive or a whole receive that comes back with an error that is not worth a retry has given
no command, begun no delay and met no report, and it leaves the world as it found it, the link and
the hardware. Every error that comes back after a command was given is worth a retry. -/
theorem refusals_touch_nothing (H : Hardware σ) (s : Session σ) (r : Request)
    (hr : ∀ bytes len timeout, r ≠ .exchange bytes len timeout) (polls : Nat) :
    let o := s.drive H r.call polls
    ∀ reply left, o.value = .finished reply left →
      (reply.retryable? = some false → o.world = s.world ∧ ∀ e ∈ o.trace, e.Reads) ∧
      ((∃ e ∈ o.trace, e.commands) →
        reply.retryable? = none ∨ reply.retryable? = some true) := by
  intro o reply left hv
  have refused := Call.Ensures.finished H (Request.refused hr s.config) hv
  have untouched : reply.retryable? = some false → o.world = s.world ∧ ∀ e ∈ o.trace, e.Reads :=
    fun hf => Call.drive_untouched hv (refused hf)
  refine ⟨untouched, ?_⟩
  rintro ⟨e, he, hc⟩
  cases ht : reply.retryable? with
  | none => exact .inl rfl
  | some again =>
    cases again with
    | true => exact .inr rfl
    | false => exact (((untouched ht).2 e he).not_commands hc).elim

/-- The engine of the receive side never reports. -/
def mute : Bench.Script where
  rx := {
    starts := ⟨[], .never⟩
    programCounter := 9
    origin := 5 }

/-- While a receive is armed another is refused; the wait for the armed one times out. -/
theorem refusals_touch_nothing_armed :
    let s := ((Session.start {} mute).run prompt [.request (.arm 2) 1]).2
    let again := s.drive prompt (Request.receive 1 10).call 1
    let late := s.drive prompt (Request.finish 10).call 1
    again.value = .finished (.received (.error .busy)) 1 ∧ again.world = s.world ∧
      late.value = .finished (.received (.error .timedOut)) 1 ∧ (∃ e ∈ late.trace, e.commands) ∧
      (Reply.received (.error .timedOut)).retryable? ≠ some false := by
  intro s again late
  have busy : again.value = .finished (.received (.error .busy)) 1 := by decide +kernel
  have timedOut : late.value = .finished (.received (.error .timedOut)) 1 := by decide +kernel
  have touched : ∃ e ∈ late.trace, e.commands := by decide +kernel
  obtain ⟨untouched, -⟩ := refusals_touch_nothing prompt s (.receive 1 10) nofun 1 _ _ busy
  obtain ⟨-, retried⟩ := refusals_touch_nothing prompt s (.finish 10) nofun 1 _ _ timedOut
  refine ⟨busy, (untouched rfl).1, timedOut, touched, ?_⟩
  rcases retried touched with fine | passing
  · simp [fine]
  · simp [passing]

end Joybus.Transceiver
