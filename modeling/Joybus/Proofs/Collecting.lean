import Joybus.Proofs.Feeding
import Mathlib.Data.List.ReduceOption

/-! Receiving through the FIFO word by word: no word more is asked for than the frame takes, and the
frame is in these words alone. -/
namespace Joybus.Transceiver

open Trace

variable {σ : Type} {l : Link} {c : LinkConfig} {b : Budget} {len timeout : Nat}

/-- A word is asked of the receive program, with its answer. -/
def pulled (found : Option Word) : Event := .acted (.command (.pull .rx)) found

/-- The answer to a word asked of the receive program. -/
def Event.pulled? : Event → Option (Option Word)
  | .acted (.command (.pull .rx)) found => some found
  | _ => none

/-- The answers to the words asked of the receive program. -/
def Trace.pulls (h : Trace) : List (Option Word) := h.filterMap Event.pulled?

theorem Trace.delivered_commands (h : Trace) : h.commands.delivered = h.delivered := by
  induction h with
  | nil => rfl
  | cons e h ih =>
    by_cases he : e.isCommand
    · rw [commands_cons, if_pos he, delivered_cons, ih, delivered_cons]
    · have none : e.delivered = [] := by
        cases e with
        | acted a x =>
          cases a with
          | command c => exact (he rfl).elim
          | _ => rfl
        | _ => rfl
      rw [commands_cons, if_neg he, ih, delivered_cons, none, List.nil_append]

theorem pulls_map (seen : List (Option Word)) : pulls (seen.map pulled) = seen := by
  induction seen with
  | nil => rfl
  | cons found seen ih => simpa [pulls, pulled, Event.pulled?] using ih

theorem delivered_map (seen : List (Option Word)) :
    Trace.delivered (seen.map pulled) = seen.reduceOption := by
  induction seen with
  | nil => rfl
  | cons found seen ih =>
    cases found with
    | none => simpa [pulled, Event.delivered] using ih
    | some word => simpa [pulled, Event.delivered] using ih

/-- One more word after `k` looks in vain. -/
theorem answers_waited (k : Nat) (word : Word) (seen : List (Option Word)) :
    (List.replicate k none ++ [some word] ++ seen).reduceOption = word :: seen.reduceOption ∧
      (List.replicate k none ++ [some word] ++ seen).count none = k + seen.count none := by
  refine ⟨?_, ?_⟩
  · rw [List.reduceOption_append, List.reduceOption_append, List.reduceOption_replicate_none]
    rfl
  · rw [List.count_append, List.count_append, List.count_replicate_self]
    rfl

theorem pullWithin_log :
    (pullWithin b).Ensures
      (fun r _ ev => match r with
        | some (word, left) => ev.slept + left.remaining = b.remaining ∧
            ∃ k, left.naps + k = b.naps ∧
              ev.commands = (List.replicate k none ++ [some word]).map pulled
        | none => ev.slept = b.remaining ∧
            ev.commands = (List.replicate (b.naps + 1) none).map pulled)
      (fun _ _ => True) l [] := by
  induction b generalizing l with
  | spent b spent =>
    rw [pullWithin, if_pos spent, Call.ensures_bind, Call.ensures_pull]
    intro found ms
    cases found with
    | none =>
      exact ⟨by simp [Event.asked, spent],
        by simp [pulled, Event.isCommand, Budget.naps_spent spent]⟩
    | some word => exact ⟨by simp [Event.asked], 0, rfl, by simp [pulled, Event.isCommand]⟩
  | sleep b unspent ih =>
    have naps := Budget.naps_unspent unspent
    have slept := b.sleep_add_rest
    rw [pullWithin, if_neg unspent, Call.ensures_bind, Call.ensures_pull]
    intro found ms
    cases found with
    | some word => exact ⟨by simp [Event.asked], 0, rfl, by simp [pulled, Event.isCommand]⟩
    | none =>
      intro ms'
      refine ⟨ensuresAll_true, ih.from _ ?_⟩
      intro r l ev hr
      cases r with
      | none =>
        obtain ⟨hs, hl⟩ := hr
        refine ⟨?_, ?_⟩
        · simp [Event.asked, Wait.beginning, hs, slept]
        · simp [hl, pulled, Event.isCommand, Wait.beginning, List.replicate_succ, naps]
      | some r =>
        obtain ⟨word, left⟩ := r
        obtain ⟨hs, k, hk, hl⟩ := hr
        refine ⟨?_, k + 1, by omega, ?_⟩
        · simp [Event.asked, Wait.beginning]
          omega
        · simp [hl, pulled, Event.isCommand, Wait.beginning, List.replicate_succ]

/-- Words are asked for until there are enough, all under one budget. -/
theorem collect_log (missing index : Nat) :
    (collect missing index b).Ensures
      (fun all _ ev => ∃ seen : List (Option Word), ev.commands = seen.map pulled ∧
        if all then seen.reduceOption.length = missing ∧ seen.count none ≤ b.naps
        else seen.reduceOption.length < missing ∧ seen.count none = b.naps + 1 ∧
          ev.slept = b.remaining)
      (fun _ _ => True) l [] := by
  induction missing generalizing index b l with
  | zero => exact ⟨[], rfl, rfl, Nat.zero_le _⟩
  | succ missing ih =>
    rw [collect, Call.ensures_bind]
    refine pullWithin_log.imp ?_
    intro r l ev hr
    cases r with
    | none =>
      obtain ⟨hs, hl⟩ := hr
      exact ⟨_, hl, by simp, by simp, hs⟩
    | some r =>
      obtain ⟨word, left⟩ := r
      obtain ⟨hs, k, hk, hl⟩ := hr
      change Call.Ensures _ _ (collect _ _ _) _ (ev ++ [.acted (.store index word) ()])
      refine (ih (index + 1)).from _ ?_
      rintro all l more ⟨seen, hm, hf⟩
      obtain ⟨words, misses⟩ := answers_waited k word seen
      refine ⟨List.replicate k none ++ [some word] ++ seen, ?_, ?_⟩
      · simp [hl, hm, Event.isCommand]
      · rw [words, misses, List.length_cons]
        cases all with
        | true =>
          obtain ⟨enough, few⟩ := hf
          exact ⟨by rw [enough], by omega⟩
        | false =>
          obtain ⟨fewer, many, slept⟩ := hf
          refine ⟨by omega, by omega, ?_⟩
          rw [slept_append, slept_append, slept, ← hs]
          rfl

/-- A receive of `len` bytes through the FIFO, by what it ends with. -/
inductive Trace.Drawn (c : LinkConfig) (len timeout : Nat) (ev : Trace) :
    Except RxError Frame → Prop
  | received {seen : List (Option Word)} (log : ev.commands = seen.map pulled)
      (enough : seen.reduceOption.length = c.packing.wordCount len)
      (few : seen.count none ≤ (c.budget timeout).naps) :
      Drawn c len timeout ev (.ok (c.packing.decodeFrame seen.reduceOption len))
  | givenUp {seen : List (Option Word)} (log : ev.commands = seen.map pulled ++ [scrapped .rx])
      (fewer : seen.reduceOption.length < c.packing.wordCount len)
      (many : seen.count none = (c.budget timeout).naps + 1) (slept : ev.slept = timeout) :
      Drawn c len timeout ev (.error .timedOut)

theorem finishFifo_drawn (c : LinkConfig) (timeout : Nat)
    (hc : c.packing.wordCount len ≤ rxCapacity) :
    (finishFifo c len timeout).Ensures (fun r _ ev => ev.Drawn c len timeout r) (fun _ _ => True)
      l [] := by
  have waiting : ∀ ev : Trace, commands ([.acted (.setRx .waiting) ()] ++ ev) = ev.commands ∧
      slept ([.acted (.setRx .waiting) ()] ++ ev) = ev.slept := fun ev =>
    ⟨rfl, by simp [Event.asked]⟩
  change Call.Ensures _ _ (collect _ _ _ >>= _) _ [.acted (.setRx .waiting) ()]
  rw [Call.ensures_bind]
  have log := (collect_log (b := c.budget timeout) (l := { l with rx := .waiting })
    (c.packing.wordCount len) 0).since [.acted (.setRx .waiting) ()]
  have buffer := collect_misses (l := { l with rx := .waiting }) (h := [.acted (.setRx .waiting) ()])
    (c.budget timeout) (c.packing.wordCount len) 0 (by simpa using hc) rfl
  refine (log.and buffer).mono ?_ fun _ _ _ => trivial
  rintro all l _ ⟨⟨ev, rfl, seen, hl, hf⟩, hb⟩
  cases all with
  | false =>
    obtain ⟨fewer, many, slept⟩ := hf
    intro _ ms
    refine .givenUp ?_ fewer many ?_
    · simp [hl, Event.isCommand, scrapped]
    · simp [slept, Event.asked]
  | true =>
    obtain ⟨enough, few⟩ := hf
    have words : l.received.toList.take (c.packing.wordCount len) = seen.reduceOption := by
      rw [if_pos rfl, Nat.zero_add, ← delivered_commands, (waiting ev).1, hl, delivered_map] at hb
      exact hb
    change Trace.Drawn c len timeout _
      (.ok (c.packing.decodeFrame (l.received.toList.take (c.packing.wordCount len)) len))
    rw [words]
    refine .received ?_ enough few
    simp [hl, Event.isCommand]

theorem Trace.Drawn.congr {ev ev' : Trace} {r : Except RxError Frame}
    (hd : ev.Drawn c len timeout r) (hc : ev'.commands = ev.commands) (hs : ev'.slept = ev.slept) :
    ev'.Drawn c len timeout r := by
  cases hd with
  | received log enough few => exact .received (hc.trans log) enough few
  | givenUp log fewer many slept => exact .givenUp (hc.trans log) fewer many (hs.trans slept)

theorem finishReceive_drawn (hm : c.mode = .fifo) (timeout : Nat) (he : l.expected = some len)
    (h1 : len ≠ 0) (hc : c.packing.wordCount len ≤ rxCapacity) :
    (finishReceive c timeout).Ensures (fun r _ ev => ev.Drawn c len timeout r) (fun _ _ => True)
      l [] := by
  rw [finishReceive, Call.ensures_bind, Call.ensures_expected, Action.Ensures, he]
  simp only [Call.ensures_bind, Call.ensures_setExpected, Action.Ensures, h1, if_false, hm]
  refine (finishFifo_drawn c timeout hc).from _ ?_
  intro r l ev hd
  exact hd.congr rfl (by simp [Event.asked])

/-- A receive through the FIFO that is armed asks for words and does nothing else with the hardware.
However the answers would go on, it succeeds if and only if its words come with no more answers in
vain than there are sleeps in its one budget. Then no word more was asked for, and the frame is the
one in exactly these words, whatever the buffer held before. Otherwise it times out after exactly
its budget, with one reset at the end. -/
theorem receive_fifo_exact {H : Hardware σ} {w : World σ} (ht : H.Timely) (hm : c.mode = .fifo)
    (he : w.link.expected = some len) (h1 : 1 ≤ len) (hl : len ≤ 32) (timeout : Nat) :
    let naps := timeout ⌈/⌉ max c.pollInterval 1
    let count := c.packing.wordCount len
    ∃ o, (finishReceive c timeout).Returns H w o ∧
      let log := o.trace.commands
      let words := log.pulls.reduceOption
      (∀ answers, log.pulls <+: answers → ((∃ frame, o.value = .ok frame) ↔
        ∃ p, p <+: answers ∧ p.reduceOption.length = count ∧ p.count none ≤ naps)) ∧
      (∀ frame, o.value = .ok frame → log = log.pulls.map pulled ∧ words.length = count ∧
        frame = c.packing.decodeFrame words len) ∧
      ((∀ frame, o.value ≠ .ok frame) → o.value = .error .timedOut ∧ o.trace.slept = timeout ∧
        log = log.pulls.map pulled ++ [scrapped .rx]) := by
  intro naps count
  have hc : c.packing.wordCount len ≤ rxCapacity := Nat.le_trans (wordCount_le _ _) hl
  obtain ⟨o, ho⟩ := ht.returns (finishReceive c timeout) w
  have drawn := ho.ensured (finishReceive_drawn (l := w.link) hm timeout he (by omega) hc)
  rw [List.nil_append] at drawn
  refine ⟨o, ho, ?_⟩
  dsimp only
  generalize o.value = r at drawn ⊢
  cases drawn with
  | @received seen log enough few =>
    have pulls : o.trace.commands.pulls = seen := by rw [log, pulls_map]
    rw [naps_budget] at few
    rw [pulls]
    refine ⟨fun answers hs => ⟨fun _ => ⟨seen, hs, enough, few⟩, fun _ => ⟨_, rfl⟩⟩, ?_, ?_⟩
    · rintro frame hf
      cases hf
      exact ⟨log, enough, rfl⟩
    · intro hf
      exact (hf _ rfl).elim
  | @givenUp seen log fewer many slept =>
    have reset : pulls [scrapped .rx] = [] := rfl
    have pulls : o.trace.commands.pulls = seen := by
      rw [log, Trace.pulls, List.filterMap_append]
      exact (congrArg₂ _ (pulls_map seen) reset).trans (List.append_nil seen)
    rw [naps_budget] at many
    rw [pulls]
    refine ⟨fun answers hs => ⟨nofun, fun enough => ?_⟩, nofun, fun _ => ⟨rfl, slept, log⟩⟩
    refine (not_enough (f := fun p => p.reduceOption.length) (g := (·.count none)) ?_ ?_ hs fewer ?_
      enough).elim
    · intro p q hp
      exact (hp.sublist.filterMap id).length_le
    · intro p q hp
      exact hp.sublist.count_le none
    · exact Nat.lt_of_lt_of_eq (Nat.lt_succ_self naps) many.symm

/-- Two words, each after a look in vain, and one more that stays in the FIFO. -/
def lateWords : Bench.Script where
  rx := {
    pulls := ⟨[none, some 0x03ffff, none, some 0xe00000, some 0xffffff], none⟩
    programCounter := 9
    origin := 5 }

/-- A frame of two bytes, with a poll every three microseconds; five are enough for two looks in
vain, and three are not. -/
theorem receive_fifo_exact_late :
    let c : LinkConfig := { mode := .fifo, pollInterval := 3 }
    let s := ((Session.start c lateWords).run prompt [.request (.arm 2) 1]).2
    (∃ o frame, (finishReceive c 5).Returns prompt s.world o ∧ o.value = .ok frame ∧
      o.trace.commands = o.trace.commands.pulls.map pulled ∧
      frame = c.packing.decodeFrame [0x03ffff, 0xe00000] 2) ∧
    ∃ o, (finishReceive c 3).Returns prompt s.world o ∧ o.value = .error .timedOut ∧
      o.trace.slept = 3 := by
  intro c s
  have armed : s.world.link.expected = some 2 := by decide +kernel
  refine ⟨?_, ?_⟩
  · obtain ⟨o, ho, iff, received, -⟩ := receive_fifo_exact (c := c) (w := s.world) prompt_timely
      rfl armed (by decide) (by decide) 5
    have trace := ho.trace_eq (by decide +kernel)
    obtain ⟨frame, value⟩ := (iff _ List.prefix_rfl).2
      ⟨_, List.prefix_rfl, by rw [trace]; decide +kernel⟩
    obtain ⟨log, -, rfl⟩ := received frame value
    refine ⟨o, _, ho, value, log, ?_⟩
    rw [trace]
    decide +kernel
  · obtain ⟨o, ho, iff, received, failed⟩ := receive_fifo_exact (c := c) (w := s.world)
      prompt_timely rfl armed (by decide) (by decide) 3
    have trace := ho.trace_eq (by decide +kernel)
    obtain ⟨timed_out, slept, -⟩ := failed (by
      intro frame value
      obtain ⟨-, enough, -⟩ := received frame value
      rw [trace] at enough
      revert enough
      decide +kernel)
    exact ⟨o, ho, timed_out, slept⟩

end Joybus.Transceiver
