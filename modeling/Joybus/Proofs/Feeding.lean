import Joybus.Proofs.Agreement
import Joybus.Proofs.Deadlines

/-! Sending through the FIFO word by word: which words the program takes, in which order, when it is
notified and how many refusals a budget pays for. -/
namespace Joybus.Transceiver

open Trace

variable {σ : Type} {l : Link} {h ev : Trace} {c : LinkConfig} {words : List Word}

/-- A word offered to the transmit program, with its answer. -/
def offer (word : Word) (taken : Bool) : Event := .acted (.command (.push .tx word)) taken

/-- The transmit program is notified. -/
def notified : Event := .acted (.command (.notify .tx)) ()

/-- The program of direction `d` is reset. -/
def scrapped (d : Direction) : Event := .acted (.command (.reset d)) ()

namespace Event

def isCommand : Event → Bool
  | .acted (.command _) _ => true
  | _ => false

/-- The answer to a word offered to the transmit program. -/
def offered? : Event → Option Bool
  | .acted (.command (.push .tx _)) taken => some taken
  | _ => none

end Event

namespace Trace

/-- Everything that the hardware was told, with its answers. -/
def commands (h : Trace) : Trace := h.filter Event.isCommand

/-- The answers to the words offered to the transmit program. -/
def offers (h : Trace) : List Bool := h.filterMap Event.offered?

/-- What happened since the bus turn was taken first. -/
def sinceTurn (h : Trace) : Trace := (h.dropWhile fun e => e.token? ≠ some .taken).tail

@[simp] theorem commands_nil : commands [] = [] := rfl

@[simp] theorem commands_cons (e : Event) (h : Trace) :
    commands (e :: h) = if e.isCommand then e :: h.commands else h.commands := by
  simp [commands, List.filter_cons]

@[simp] theorem commands_append (h ev : Trace) :
    commands (h ++ ev) = h.commands ++ ev.commands := by
  simp [commands]

@[simp] theorem commands_markTrace (l : Link) (ms : List Mark) :
    commands (l.markTrace ms) = [] := by
  refine List.filter_eq_nil_iff.2 ?_
  intro e he
  obtain ⟨m, s, rfl⟩ := Link.mem_markTrace he
  simp [Event.isCommand]

@[simp] theorem accepted_append (d : Direction) (h ev : Trace) :
    accepted d (h ++ ev) = h.accepted d ++ ev.accepted d := by
  simp [accepted]

@[simp] theorem offers_append (h ev : Trace) : offers (h ++ ev) = h.offers ++ ev.offers := by
  simp [offers]

@[simp] theorem accepted_replicate (k : Nat) (word : Word) :
    accepted .tx (List.replicate k (offer word false)) = [] :=
  List.filterMap_replicate_of_none rfl

@[simp] theorem offers_replicate (k : Nat) (word : Word) (taken : Bool) :
    offers (List.replicate k (offer word taken)) = List.replicate k taken :=
  List.filterMap_replicate_of_some rfl

/-- As many offers are taken as words. -/
theorem count_true_offers (h : Trace) : h.offers.count true = (h.accepted .tx).length := by
  induction h with
  | nil => rfl
  | cons e h ih =>
    have same : (e.offered?.toList).count true = (e.accepted? .tx).toList.length := by
      cases e with
      | acted a x =>
        cases a with
        | command c =>
          cases c with
          | push d w => cases d <;> cases x <;> rfl
          | _ => rfl
        | _ => rfl
      | _ => rfl
    cases ho : e.offered? <;> cases ha : e.accepted? .tx <;>
      simp_all [offers, accepted, List.count_cons]

theorem sinceTurn_append (ht : .taken ∈ h.tokens) (ev : Trace) :
    sinceTurn (h ++ ev) = h.sinceTurn ++ ev := by
  induction h with
  | nil => simp [tokens] at ht
  | cons e h ih =>
    by_cases he : e.token? = some .taken
    · simp [sinceTurn, he]
    · obtain ⟨x, hx, hk⟩ := List.mem_filterMap.1 ht
      rcases List.mem_cons.1 hx with rfl | hx
      · exact (he hk).elim
      · simpa [sinceTurn, he] using ih (List.mem_filterMap.2 ⟨x, hx, hk⟩)

theorem sinceTurn_clear (ht : h.tokens = []) (ev : Trace) :
    sinceTurn (h ++ .acted (.command (.clear .tx busTurnFlag)) () :: ev) = ev := by
  induction h with
  | nil => simp [sinceTurn, Event.token?]
  | cons e h ih =>
    obtain ⟨he, hh⟩ : e.token? = none ∧ tokens h = [] := by
      cases he : e.token? <;> simp_all [tokens]
    simpa [sinceTurn, he] using ih hh

end Trace

section Send
variable {b : Budget} {timeout : Nat}

theorem fill_log (words : List Word) :
    (fill words).Ensures
      (fun rest _ ev => ∃ queued, words = queued ++ rest ∧ ev.slept = 0 ∧
        ev.commands = queued.map (offer · true) ++ (rest.take 1).map (offer · false))
      (fun _ _ => True) l [] := by
  induction words generalizing l with
  | nil => exact ⟨[], rfl, rfl, rfl⟩
  | cons word words ih =>
    rw [fill, Call.ensures_bind, Call.ensures_push]
    intro taken ms
    cases taken with
    | false => exact ⟨[], rfl, by simp [Event.asked], by simp [offer, Event.isCommand]⟩
    | true =>
      refine ih.from _ ?_
      rintro rest l ev ⟨queued, hw, hs, hl⟩
      exact ⟨word :: queued, by rw [hw, List.cons_append], by simp [hs, Event.asked],
        by simp [hl, offer, Event.isCommand]⟩

/-- A word is offered until it is taken, and one more time than there are sleeps if it never is. -/
theorem pushWithin_log (word : Word) (undo : List Action) :
    (pushWithin .tx word undo b).Ensures
      (fun r _ ev => match r with
        | some left => ev.slept + left.remaining = b.remaining ∧ ∃ k, left.naps + k = b.naps ∧
            ev.commands = List.replicate k (offer word false) ++ [offer word true]
        | none => ev.slept = b.remaining ∧
            ev.commands = List.replicate (b.naps + 1) (offer word false))
      (fun _ _ => True) l [] := by
  induction b generalizing l with
  | spent b spent =>
    rw [pushWithin, if_pos spent, Call.ensures_bind, Call.ensures_push]
    intro taken ms
    cases taken with
    | false =>
      exact ⟨by simp [Event.asked, spent],
        by simp [offer, Event.isCommand, Budget.naps_spent spent]⟩
    | true =>
      exact ⟨by simp [Event.asked], 0, rfl, by simp [offer, Event.isCommand]⟩
  | sleep b unspent ih =>
    have naps := Budget.naps_unspent unspent
    have slept := b.sleep_add_rest
    rw [pushWithin, if_neg unspent, Call.ensures_bind, Call.ensures_push]
    intro taken ms
    cases taken with
    | true => exact ⟨by simp [Event.asked], 0, rfl, by simp [offer, Event.isCommand]⟩
    | false =>
      intro ms'
      refine ⟨ensuresAll_true, ih.from _ ?_⟩
      intro r l ev hr
      cases r with
      | none =>
        obtain ⟨hs, hl⟩ := hr
        refine ⟨?_, ?_⟩
        · simp [Event.asked, Wait.beginning, hs, slept]
        · simp [hl, offer, Event.isCommand, Wait.beginning, List.replicate_succ, naps]
      | some left =>
        obtain ⟨hs, k, hk, hl⟩ := hr
        refine ⟨?_, k + 1, by omega, ?_⟩
        · simp [Event.asked, Wait.beginning]
          omega
        · simp [hl, offer, Event.isCommand, Wait.beginning, List.replicate_succ]

/-- Nothing but words was offered. -/
def Trace.Offering (log : Trace) : Prop := ∀ e ∈ log, ∃ word taken, e = offer word taken

theorem Trace.Offering.tokens {log : Trace} (ho : log.Offering) : log.tokens = [] := by
  refine List.filterMap_eq_nil_iff.2 ?_
  intro e he
  obtain ⟨word, taken, rfl⟩ := ho e he
  rfl

theorem Trace.Offering.unscrapped {log : Trace} (ho : log.Offering) (d : Direction) :
    scrapped d ∉ log := by
  intro hd
  obtain ⟨word, taken, he⟩ := ho _ hd
  cases he

/-- Words are offered in order, each until it is taken, all under one budget. -/
theorem feed_log (words : List Word) :
    (feed words b).Ensures
      (fun fed _ ev => ev.commands.Offering ∧
        if fed then ev.commands.accepted .tx = words ∧ ev.commands.offers.count false ≤ b.naps
        else (∃ rest, rest ≠ [] ∧ words = ev.commands.accepted .tx ++ rest) ∧
          ev.commands.offers.count false = b.naps + 1 ∧ ev.slept = b.remaining)
      (fun _ _ => True) l [] := by
  induction words generalizing b l with
  | nil => exact ⟨nofun, rfl, Nat.zero_le _⟩
  | cons word words ih =>
    rw [feed, Call.ensures_bind]
    refine (pushWithin_log word _).imp ?_
    intro r l ev hr
    cases r with
    | none =>
      obtain ⟨hs, hl⟩ := hr
      rw [Call.pure_eq, Call.ensures_done, hl]
      refine ⟨?_, ⟨word :: words, by simp, ?_⟩, ?_, hs⟩
      · intro e he
        exact ⟨word, false, List.eq_of_mem_replicate he⟩
      · rw [accepted_replicate, List.nil_append]
      · rw [offers_replicate, List.count_replicate_self]
    | some left =>
      obtain ⟨hs, k, hk, hl⟩ := hr
      refine ih.from ev ?_
      rintro fed l more ⟨ho, hf⟩
      have taken : (commands (ev ++ more)).accepted .tx =
          word :: more.commands.accepted .tx := by
        rw [commands_append, accepted_append, hl, accepted_append, accepted_replicate]
        rfl
      have refused : (commands (ev ++ more)).offers.count false =
          k + more.commands.offers.count false := by
        rw [commands_append, offers_append, hl, offers_append, offers_replicate, List.count_append,
          List.count_append, List.count_replicate_self]
        rfl
      refine ⟨?_, ?_⟩
      · rw [commands_append, hl]
        intro e he
        rcases List.mem_append.1 he with he | he
        · rcases List.mem_append.1 he with he | he
          · exact ⟨word, false, List.eq_of_mem_replicate he⟩
          · exact ⟨word, true, List.mem_singleton.1 he⟩
        · exact ho e he
      · rw [taken, refused]
        cases fed with
        | true =>
          obtain ⟨hw, hn⟩ := hf
          exact ⟨by rw [hw], by omega⟩
        | false =>
          obtain ⟨⟨rest, hne, hw⟩, hn, hm⟩ := hf
          refine ⟨⟨rest, hne, by rw [hw]; rfl⟩, by omega, ?_⟩
          rw [slept_append]
          omega

theorem accepted_queued (queued : List Word) :
    accepted .tx (queued.map (offer · true)) = queued := by
  induction queued with
  | nil => rfl
  | cons word queued ih => simpa [accepted, offer, Event.accepted?] using ih

theorem accepted_refused (rest : List Word) : accepted .tx (rest.map (offer · false)) = [] := by
  simp [accepted, offer, Event.accepted?]

theorem offers_map (words : List Word) (taken : Bool) :
    offers (words.map (offer · taken)) = List.replicate words.length taken := by
  induction words with
  | nil => rfl
  | cons word words ih => simpa [offers, offer, Event.offered?, List.replicate_succ] using ih

theorem offering_map (words : List Word) (taken : Bool) : Offering (words.map (offer · taken)) := by
  intro e he
  obtain ⟨word, -, rfl⟩ := List.mem_map.1 he
  exact ⟨word, taken, rfl⟩

/-- How a send through the FIFO begins. Words are taken until the first of `rest` is refused, if
there is one; then the program is notified. -/
def opening (queued rest : List Word) : Trace :=
  queued.map (offer · true) ++ (rest.take 1).map (offer · false) ++ [notified]

section Opening
variable (queued rest : List Word) (later : Trace)

theorem accepted_opening :
    accepted .tx (opening queued rest ++ later) = queued ++ later.accepted .tx := by
  have none : accepted .tx [notified] = [] := rfl
  rw [opening, accepted_append, accepted_append, accepted_append, accepted_queued,
    accepted_refused, none, List.append_nil, List.append_nil]

theorem refusals_opening : (offers (opening queued rest ++ later)).count false =
    (rest.take 1).length + later.offers.count false := by
  have none : offers [notified] = [] := rfl
  rw [opening, offers_append, offers_append, offers_append, offers_map, offers_map, none,
    List.append_nil, List.count_append, List.count_append, List.count_replicate_self]
  simp [List.count_replicate]

theorem scrapped_mem_opening {d : Direction} :
    scrapped d ∈ opening queued rest ++ later ↔ scrapped d ∈ later := by
  have taken := (offering_map queued true).unscrapped d
  have refused := (offering_map (rest.take 1) false).unscrapped d
  have other : scrapped d ∉ [notified] := by simp [scrapped, notified]
  simp only [opening, List.mem_append, taken, refused, other, false_or]

end Opening

/-- A send of `words` through the FIFO that ends with `r`. -/
structure Trace.Fed (c : LinkConfig) (words : List Word) (timeout : Nat) (r : Except TxError Unit)
    (ev : Trace) : Prop where
  order : ∃ (queued rest : List Word) (later : Trace), words = queued ++ rest ∧
    ev.commands = opening queued rest ++ later ∧ later.tokens = [] ∧ (rest = [] → later = [])
  sent : r = .ok () → ev.commands.accepted .tx = words ∧
    ev.commands.offers.count false ≤ (c.budget timeout).naps + 1 ∧ scrapped .tx ∉ ev.commands
  failed : r ≠ .ok () → r = .error .timedOut ∧
    (∃ left, left ≠ [] ∧ words = ev.commands.accepted .tx ++ left) ∧
    ev.commands.offers.count false = (c.budget timeout).naps + 2 ∧ ev.slept = timeout ∧
    ∃ before : Trace, ev.commands = before ++ [scrapped .tx] ∧ scrapped .tx ∉ before

section Endings
variable {later : Trace} {queued rest left : List Word} {word : Word}

/-- No word is refused. -/
theorem Trace.fed_queued (hl : ev.commands = opening words []) :
    ev.Fed c words timeout (.ok ()) := by
  have accepted := accepted_opening words [] []
  have refusals := refusals_opening words [] []
  have unscrapped := scrapped_mem_opening words [] [] (d := .tx)
  rw [List.append_nil, ← hl] at accepted refusals unscrapped
  refine ⟨⟨words, [], [], by simp, by simp [hl], rfl, fun _ => rfl⟩, fun _ => ⟨?_, ?_, ?_⟩,
    fun hr => (hr rfl).elim⟩
  · exact accepted.trans (List.append_nil words)
  · rw [refusals]
    exact Nat.zero_le _
  · simp [unscrapped]

/-- The word that is refused and those after it are fed in time. -/
theorem Trace.fed_drained (ho : later.Offering) (ha : later.accepted .tx = word :: rest)
    (hn : later.offers.count false ≤ (c.budget timeout).naps)
    (hl : ev.commands = opening queued (word :: rest) ++ later) :
    ev.Fed c (queued ++ word :: rest) timeout (.ok ()) := by
  refine ⟨⟨queued, word :: rest, later, rfl, hl, ho.tokens, nofun⟩, fun _ => ⟨?_, ?_, ?_⟩,
    fun hr => (hr rfl).elim⟩
  · rw [hl, accepted_opening, ha]
  · rw [hl, refusals_opening, List.take_succ_cons, List.length_cons]
    simp only [List.take_zero, List.length_nil]
    omega
  · rw [hl, scrapped_mem_opening]
    exact ho.unscrapped .tx

/-- They are not, and the program is reset. -/
theorem Trace.fed_givenUp (ho : later.Offering) (hne : left ≠ [])
    (ha : word :: rest = later.accepted .tx ++ left)
    (hn : later.offers.count false = (c.budget timeout).naps + 1) (hs : ev.slept = timeout)
    (hl : ev.commands = opening queued (word :: rest) ++ (later ++ [scrapped .tx])) :
    ev.Fed c (queued ++ word :: rest) timeout (.error .timedOut) := by
  have tokens : Trace.tokens (later ++ [scrapped .tx]) = [] := by
    rw [tokens_concat, ho.tokens]
    rfl
  refine ⟨⟨queued, word :: rest, later ++ [scrapped .tx], rfl, hl, tokens, nofun⟩, nofun,
    fun _ => ⟨rfl, ⟨left, hne, ?_⟩, ?_, hs, opening queued (word :: rest) ++ later, ?_, ?_⟩⟩
  · have none : accepted .tx [scrapped .tx] = [] := rfl
    rw [hl, accepted_opening, accepted_append, none, List.append_nil, ha, List.append_assoc]
  · have none : offers [scrapped .tx] = [] := rfl
    rw [hl, refusals_opening, offers_append, none, List.append_nil, hn]
    simp only [List.take_succ_cons, List.take_zero, List.length_cons, List.length_nil]
    omega
  · rw [hl, List.append_assoc]
  · rw [scrapped_mem_opening]
    exact ho.unscrapped .tx

end Endings

theorem sendFifo_fed (c : LinkConfig) (words : List Word) (timeout : Nat) :
    (sendFifo c words timeout).Ensures (fun r _ ev => ev.Fed c words timeout r) (fun _ _ => True)
      l [] := by
  change Call.Ensures _ _ (fill words >>= _) _ [.acted (.setTx .armed) ()]
  rw [Call.ensures_bind]
  refine (fill_log words).from _ ?_
  rintro rest l ev ⟨queued, rfl, hs, hl⟩
  cases rest with
  | nil =>
    intro _ ms
    refine fed_queued ?_
    simp [hl, opening, Event.isCommand, notified]
  | cons word rest =>
    intro _ ms
    change Call.Ensures _ _ (feed _ _ >>= _) _ _
    rw [Call.ensures_bind]
    refine (feed_log (word :: rest)).from _ ?_
    rintro fed l more ⟨ho, hf⟩
    cases fed with
    | true =>
      obtain ⟨ha, hn⟩ := hf
      refine fed_drained ho ha hn ?_
      simp [hl, opening, Event.isCommand, notified]
    | false =>
      obtain ⟨⟨left, hne, ha⟩, hn, hm⟩ := hf
      intro _ ms
      refine fed_givenUp ho hne ha hn ?_ ?_
      · simp [hs, hm, Event.asked]
      · simp [hl, opening, Event.isCommand, notified, scrapped]

theorem Trace.Fed.congr {ev ev' : Trace} {r : Except TxError Unit} (hf : ev.Fed c words timeout r)
    (hc : ev'.commands = ev.commands) (hs : ev'.slept = ev.slept) :
    ev'.Fed c words timeout r := by
  obtain ⟨order, sent, failed⟩ := hf
  refine ⟨?_, ?_, ?_⟩
  · rwa [hc]
  · rwa [hc]
  · rwa [hc, hs]

/-- Nothing but the bus turn is taken, if at all. -/
theorem takeBusTurn_sinceTurn (c : LinkConfig) (ht : h.tokens = []) :
    (takeBusTurn c).Ensures
      (fun taken _ h => if taken then
          .taken ∈ h.tokens ∧ h.sinceTurn.commands = [] ∧ h.sinceTurn.slept = 0
        else h.tokens = [])
      (fun _ _ => True) l h := by
  have looks : (awaitBusTurn (c.budget c.busTurnTimeout)).Uses Action.Tokenless
      fun p _ => p.IsNap := awaitBusTurn_uses (fun _ => rfl) fun _ => trivial
  rw [takeBusTurn, Call.ensures_bind]
  refine ((keeps_tokens []).naps looks ht).imp ?_
  intro seen l h ht
  cases seen with
  | false => exact (keeps_tokens []).perform (fun _ => rfl) ht fun _ _ _ ht => ht
  | true =>
    intro _ ms
    refine ⟨?_, ?_, ?_⟩
    · simp [tokens, Event.token?]
    · rw [sinceTurn_clear ht, commands_markTrace]
    · rw [sinceTurn_clear ht, slept_markTrace]

theorem sendWords_fed (hm : c.mode = .fifo) (words : List Word) (timeout : Nat)
    (ht : h.tokens = []) :
    (sendWords c words timeout).Ensures
      (fun r _ h => .taken ∈ h.tokens → h.sinceTurn.Fed c words timeout r) (fun _ _ => True) l h := by
  have untaken {r : Except TxError Unit} {h : Trace} (ht : h.tokens = []) :
      .taken ∈ h.tokens → h.sinceTurn.Fed c words timeout r := by
    intro taken
    rw [ht] at taken
    cases taken
  refine (keeps_tokens []).perform (fun _ => rfl) ht fun s l h ht => ?_
  split
  · exact untaken ht
  refine (keeps_tokens []).perform (fun _ => rfl) ht fun s l h ht => ?_
  split
  · exact untaken ht
  rw [Call.ensures_bind]
  refine (takeBusTurn_sinceTurn c ht).imp ?_
  intro taken l h ht
  cases taken with
  | false => exact untaken ht
  | true =>
    obtain ⟨ht, hc, hs⟩ := ht
    simp only [if_true, hm]
    refine (sendFifo_fed c words timeout).from h ?_
    intro r l ev hf _
    rw [sinceTurn_append ht]
    exact hf.congr (by rw [commands_append, hc, List.nil_append])
      (by rw [slept_append, hs, Nat.zero_add])

end Send

/-- Answers that were too few when the budget was spent are not enough with any that follow. -/
theorem not_enough {β : Type} {f g : List β → Nat} {seen answers : List β} {n k : Nat}
    (hf : ∀ p q, p <+: q → f p ≤ f q) (hg : ∀ p q, p <+: q → g p ≤ g q)
    (hs : seen <+: answers) (few : f seen < n) (late : k < g seen) :
    ¬ ∃ p, p <+: answers ∧ f p = n ∧ g p ≤ k := by
  rintro ⟨p, hp, hn, hk⟩
  rcases List.prefix_or_prefix_of_prefix hs hp with hp | hp
  · have more := hg _ _ hp
    omega
  · have fewer := hf _ _ hp
    omega

/-- Once the bus turn is taken, a send through the FIFO offers its words in order, each until it is
taken, and the words taken are the first ones of the stream. The program is notified once, right
after the first refusal or else after the last word. However the answers to the offers would go on,
the send succeeds if and only if all words are taken with no more refusals, but for the first, than
there are sleeps in its one budget, and then no reset is made. Otherwise it times out after exactly
its budget, and the last command is the only reset. -/
theorem send_fifo_exact {H : Hardware σ} {w : World σ} (ht : H.Timely) (hm : c.mode = .fifo)
    {bytes : List Byte} (hb : bytes ≠ []) (hl : bytes.length ≤ c.maxFrameBytes) (timeout : Nat) :
    let naps := timeout ⌈/⌉ max c.pollInterval 1
    ∃ words o, WordStream.encode bytes c.maxFrameBytes = .ok words ∧
      (send c bytes timeout).Returns H w o ∧
      (.taken ∈ o.trace.tokens →
        let log := o.trace.sinceTurn.commands
        log.accepted .tx <+: words ∧
        (∃ (queued rest : List Word) (later : Trace), words = queued ++ rest ∧
          log = queued.map (offer · true) ++ (rest.take 1).map (offer · false) ++ [notified] ++ later ∧
          later.tokens = [] ∧ (rest = [] → later = [])) ∧
        (∀ answers, log.offers <+: answers → (o.value = .ok () ↔
          ∃ p, p <+: answers ∧ p.count true = words.length ∧ p.count false - 1 ≤ naps)) ∧
        (o.value = .ok () → log.accepted .tx = words ∧ scrapped .tx ∉ log) ∧
        (o.value ≠ .ok () → o.value = .error .timedOut ∧ o.trace.sinceTurn.slept = timeout ∧
          ∃ before : Trace, log = before ++ [scrapped .tx] ∧ scrapped .tx ∉ before)) := by
  intro naps
  have he := encode_eq_ok c hb hl
  obtain ⟨o, ho⟩ := ht.returns (send c bytes timeout) w
  refine ⟨_, o, he, ho, ?_⟩
  intro taken
  dsimp only
  have sends : (send c bytes timeout).Ensures (fun r _ h => .taken ∈ h.tokens →
      h.sinceTurn.Fed c (WordStream.header bytes.length :: WordStream.payload bytes) timeout r)
      (fun _ _ => True) w.link [] := by
    rw [send, he]
    simp only [hm]
    exact sendWords_fed hm _ timeout rfl
  generalize WordStream.header bytes.length :: WordStream.payload bytes = words at sends ⊢
  obtain ⟨order, sent, failed⟩ := ho.ensured sends taken
  rw [List.nil_append] at order sent failed
  have budget : (c.budget timeout).naps = naps := naps_budget c timeout
  rw [budget] at sent failed
  generalize o.trace.sinceTurn.commands = log at order sent failed ⊢
  have count := count_true_offers log
  refine ⟨?_, order, ?_, fun hr => ⟨(sent hr).1, (sent hr).2.2⟩, fun hr => ?_⟩
  · by_cases hr : o.value = .ok ()
    · rw [(sent hr).1]
    · obtain ⟨-, ⟨left, -, hw⟩, -⟩ := failed hr
      exact ⟨left, hw.symm⟩
  · intro answers hs
    by_cases hr : o.value = .ok ()
    · obtain ⟨all, few, -⟩ := sent hr
      refine ⟨fun _ => ⟨log.offers, hs, ?_, by omega⟩, fun _ => hr⟩
      rw [count, all]
    · obtain ⟨-, ⟨left, hne, hw⟩, many, -⟩ := failed hr
      have some_left := List.length_pos_iff.2 hne
      have short : (log.accepted .tx).length < words.length := by
        rw [hw, List.length_append]
        omega
      refine ⟨fun ok => (hr ok).elim, fun enough => ?_⟩
      refine (not_enough (f := (·.count true)) (g := fun p => p.count false - 1) ?_ ?_ hs
        (count ▸ short) ?_ enough).elim
      · intro p q hp
        exact hp.sublist.count_le true
      · intro p q hp
        exact Nat.sub_le_sub_right (hp.sublist.count_le false) 1
      · rw [many]
        omega
  · obtain ⟨timed_out, -, -, slept, reset⟩ := failed hr
    exact ⟨timed_out, slept, reset⟩

/-- A FIFO that is full after one word, and is drained two looks later. -/
def slowProgram : Bench.Script where
  tx := {
    pushes := ⟨[true, false, false, true], true⟩
    programCounter := 7
    origin := 3 }

/-- A FIFO that is full after one word and never drained. -/
def stuckProgram : Bench.Script where
  tx := {
    pushes := ⟨[true], false⟩
    programCounter := 7
    origin := 3 }

/-- A frame of two words and a header, with a poll every three microseconds out of ten. -/
theorem send_fifo_exact_slow :
    let c : LinkConfig := { mode := .fifo, pollInterval := 3 }
    let bytes : List Byte := [0x41, 0xa5, 0x00, 0xff, 0x13]
    (∃ words o, WordStream.encode bytes c.maxFrameBytes = .ok words ∧
      (send c bytes 10).Returns prompt (Session.start c slowProgram).world o ∧
      o.value = .ok () ∧ o.trace.sinceTurn.commands.accepted .tx = words) ∧
    ∃ o, (send c bytes 10).Returns prompt (Session.start c stuckProgram).world o ∧
      o.value = .error .timedOut ∧ o.trace.sinceTurn.slept = 10 ∧
      o.trace.sinceTurn.commands.offers = true :: List.replicate 6 false := by
  intro c bytes
  have nonempty : bytes ≠ [] := by decide
  have fits : bytes.length ≤ c.maxFrameBytes := by decide
  refine ⟨?_, ?_⟩
  · obtain ⟨words, o, he, ho, exact⟩ := send_fifo_exact (w := (Session.start c slowProgram).world)
      prompt_timely rfl nonempty fits 10
    have trace := ho.trace_eq (by decide +kernel)
    obtain ⟨-, -, iff, all, -⟩ := exact (by rw [trace]; decide +kernel)
    have value : o.value = .ok () := by
      refine (iff _ List.prefix_rfl).2 ⟨_, List.prefix_rfl, ?_⟩
      cases Except.ok.inj he
      rw [trace]
      decide +kernel
    exact ⟨words, o, he, ho, value, (all value).1⟩
  · obtain ⟨words, o, he, ho, exact⟩ := send_fifo_exact (w := (Session.start c stuckProgram).world)
      prompt_timely rfl nonempty fits 10
    have trace := ho.trace_eq (by decide +kernel)
    obtain ⟨-, -, -, all, failed⟩ := exact (by rw [trace]; decide +kernel)
    have value : o.value ≠ .ok () := by
      intro sent
      have missing := (all sent).1
      cases Except.ok.inj he
      rw [trace] at missing
      revert missing
      decide +kernel
    obtain ⟨timed_out, slept, -⟩ := failed value
    exact ⟨o, ho, timed_out, slept, by rw [trace]; decide +kernel⟩

end Joybus.Transceiver
