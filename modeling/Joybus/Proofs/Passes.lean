import Joybus.Selftest
import Mathlib.Algebra.Group.Nat.Defs

/-! Passes of the self-test: what each of them exchanges, and how it is counted. -/
namespace Joybus.Selftest

open Transceiver (Call Ending ExchangeError Outcome Trace World)

section Verdicts
variable {limit : Nat} {bytes : List Byte} {r : Except ExchangeError Frame}

/-- A frame that the link carries is good if it comes back as it was sent. -/
theorem judge_carried (h : bytes.length ≤ limit) :
    (judge limit bytes r).good = true ↔ ∃ f : Frame, r = .ok f ∧ f.bytes = bytes := by
  have carried : ¬ limit < bytes.length := Nat.not_lt.2 h
  cases r with
  | ok f => by_cases same : f.bytes = bytes <;> simp [judge, carried, same, Check.good]
  | error e =>
    cases e with
    | rx e => simp [judge, Check.good]
    | tx e => cases e <;> simp [judge, carried, Check.good]

/-- A frame that is too long for the link is good if it is refused for that. -/
theorem judge_long (h : limit < bytes.length) :
    (judge limit bytes r).good = true ↔ r = .error (.tx .frameTooLong) := by
  cases r with
  | ok f => simp [judge, h, Check.good]
  | error e =>
    cases e with
    | rx e => simp [judge, Check.good]
    | tx e => cases e <;> simp [judge, h, Check.good]

/-- The exchange of a frame that came to an end. -/
structure Trial where
  bytes : List Byte
  result : Except ExchangeError Frame
  trace : Trace

/-- What a good pass expects of a frame: it comes back as it was sent if the link carries it, and is
refused as too long if not. -/
def Trial.Expected (limit : Nat) (t : Trial) : Prop :=
  if t.bytes.length ≤ limit then ∃ f : Frame, t.result = .ok f ∧ f.bytes = t.bytes
  else t.result = .error (.tx .frameTooLong)

/-- The frame was exchanged as a good pass expects. -/
def Trial.good (limit : Nat) (t : Trial) : Bool := (judge limit t.bytes t.result).good

theorem Trial.good_iff (t : Trial) : t.good limit = true ↔ t.Expected limit := by
  rw [good, Expected]
  split
  · next carried => exact judge_carried carried
  · next long => exact judge_long (Nat.lt_of_not_le long)

/-- A pass is counted: one of the counts goes up by one, modulo 2^32, and the other stays. Which one
it is depends on whether all frames were exchanged as expected. -/
structure Counted (limit : Nat) (trials : List Trial) (good : Bool) (before after : Tally) :
    Prop where
  verdict : good = true ↔ ∀ t ∈ trials, t.Expected limit
  passes : after.passes.toNat = (before.passes.toNat + good.toNat) % 2 ^ 32
  failures : after.failures.toNat = (before.failures.toNat + (!good).toNat) % 2 ^ 32

theorem counted {trials : List Trial} {good : Bool} (t : Tally)
    (h : good = true ↔ ∀ t ∈ trials, t.Expected limit) :
    Counted limit trials good t (t.count good) := by
  cases good with
  | true => exact ⟨h, by simp [Tally.count], t.failures.toNat_mod_cancel.symm⟩
  | false => exact ⟨h, t.passes.toNat_mod_cancel.symm, by simp [Tally.count]⟩

end Verdicts

variable {σ : Type}

theorem outcome_eq {α : Type} {o : Outcome σ α} {a : α} (h : o.value = a) :
    o = ⟨a, o.world, o.trace⟩ :=
  h ▸ rfl

/-- What is recorded of exchanges that came to an end, each followed by a sleep. -/
def Setting.record (s : Setting σ) (tally : Tally) (trials : List Trial) : List Entry :=
  trials.flatMap fun t => [.checked t.bytes t.result t.trace, .slept s.loopback.interFrame tally]

/-- The frames of `trials` are exchanged one after the other, each for a response of its own length
within the longer of the two timeouts, from the world that the one before and the sleep after it
left. -/
inductive Tried (s : Setting σ) (tally : Tally) (polls : Nat) (w : World σ) :
    List Trial → Nat → World σ → Prop where
  | none : Tried s tally polls w [] polls w
  | more {trials : List Trial} {left left' : Nat} {reached next : World σ} (t : Trial) :
      Tried s tally polls w trials left reached →
      (Transceiver.exchange s.link t.bytes t.bytes.length
        (max s.timing.txTimeout s.timing.rxTimeout)).drive s.hardware reached left =
          ⟨.finished t.result left', next, t.trace⟩ →
      Tried s tally polls w (trials ++ [t]) left' (s.sleep s.loopback.interFrame tally next)

/-- A log that is a sequence of passes. A pass exchanges all frames in order and is counted; the
last one may be underway, or ends with an exchange that was cut. -/
inductive Logged (s : Setting σ) :
    Nat → World σ → Tally → List Entry → World σ → Tally → Prop where
  | pass {polls left : Nat} {w reached last : World σ} {before next after : Tally}
      {trials : List Trial} {good : Bool} {log : List Entry} :
      Tried s before polls w trials left reached → trials.map Trial.bytes = frames →
      Counted s.link.maxFrameBytes trials good before next →
      Logged s left (s.sleep s.loopback.interval next reached) next log last after →
      Logged s polls w before
        (s.record before trials ++ .counted good :: .slept s.loopback.interval next :: log)
        last after
  | underway {polls left : Nat} {w last : World σ} {tally : Tally} {trials : List Trial} :
      Tried s tally polls w trials left last → trials.map Trial.bytes <+: frames →
      Logged s polls w tally (s.record tally trials) last tally
  | cut {polls left : Nat} {w reached last : World σ} {tally : Tally} {trials : List Trial}
      {bytes : List Byte} {trace : Trace} :
      Tried s tally polls w trials left reached → trials.map Trial.bytes ++ [bytes] <+: frames →
      (Transceiver.exchange s.link bytes bytes.length
        (max s.timing.txTimeout s.timing.rxTimeout)).drive s.hardware reached left =
          ⟨.dropped, last, trace⟩ →
      Logged s polls w tally (s.record tally trials ++ [.cut bytes trace]) last tally

variable {s : Setting σ} {polls : Nat} {w : World σ} {tally : Tally} {trials : List Trial}

section Logs

/-- The entry counts a pass as good, or as bad. -/
@[simp] def Entry.counts (good : Bool) : Entry → Bool
  | .counted g => g == good
  | _ => false

@[simp] def Entry.isSleep : Entry → Bool
  | .slept .. => true
  | _ => false

/-- How many passes a log counts as good, or as bad. -/
def passes (good : Bool) (log : List Entry) : Nat := log.countP (Entry.counts good)

/-- How many sleeps a log has. -/
def slept (log : List Entry) : Nat := log.countP Entry.isSleep

variable (good : Bool) (e : Entry) (log log' : List Entry)

@[simp] theorem passes_nil : passes good [] = 0 := rfl

@[simp] theorem passes_cons : passes good (e :: log) = passes good log + (e.counts good).toNat := by
  rw [passes, List.countP_cons]
  cases e.counts good <;> rfl

@[simp] theorem passes_append : passes good (log ++ log') = passes good log + passes good log' :=
  List.countP_append

@[simp] theorem slept_nil : slept [] = 0 := rfl

@[simp] theorem slept_cons : slept (e :: log) = slept log + e.isSleep.toNat := by
  rw [slept, List.countP_cons]
  cases e.isSleep <;> rfl

@[simp] theorem slept_append : slept (log ++ log') = slept log + slept log' := List.countP_append

@[simp] theorem passes_record : passes good (s.record tally trials) = 0 := by
  induction trials with
  | nil => rfl
  | cons t trials ih => simpa [Setting.record] using ih

@[simp] theorem slept_record : slept (s.record tally trials) = trials.length := by
  induction trials with
  | nil => rfl
  | cons t trials ih => simpa [Setting.record] using ih

variable {log : List Entry} {last : World σ} {before after : Tally}

/-- Each count goes up by the number of passes that were counted so. -/
theorem Logged.tallied (h : Logged s polls w before log last after) :
    after.passes.toNat = (before.passes.toNat + passes true log) % 2 ^ 32 ∧
      after.failures.toNat = (before.failures.toNat + passes false log) % 2 ^ 32 := by
  induction h with
  | @pass _ _ _ _ _ before next after _ good log tried all counted others ih =>
    rw [ih.1, ih.2, counted.passes, counted.failures]
    cases good <;> simp <;> omega
  | underway | cut => simp [-Nat.reducePow]

/-- A pass is counted once all its sleeps are over. -/
theorem Logged.completed (h : Logged s polls w before log last after) :
    passes true log + passes false log = slept log / (frames.length + 1) := by
  induction h with
  | @pass _ _ _ _ _ before next _ trials good log tried all counted others ih =>
    have same : trials.length = frames.length := by rw [← all, List.length_map]
    have sleeps : slept (s.record before trials ++ .counted good ::
        .slept s.loopback.interval next :: log) = slept log + (frames.length + 1) := by
      simp [same]
      omega
    rw [sleeps, Nat.add_div_right _ (Nat.succ_pos _), ← ih]
    cases good <;> simp <;> omega
  | underway tried begins =>
    have short := begins.length_le
    rw [List.length_map] at short
    simp [Nat.div_eq_of_lt (Nat.lt_succ_of_le short)]
  | cut tried begins drop =>
    have short := begins.length_le
    rw [List.length_append, List.length_map] at short
    simp [Nat.div_eq_of_lt (Nat.lt_succ_of_le (Nat.le_of_succ_le short))]

end Logs

section Steps
variable {start : Nat} {first : World σ} {stage : Stage}

/-- A pass stands at `stage` after `trials`, which began at `start` and `first`. -/
structure Underway (s : Setting σ) (start : Nat) (first : World σ) (trials : List Trial)
    (stage : Stage) (polls : Nat) (w : World σ) : Prop where
  tried : Tried s stage.tally start first trials polls w
  frames_left : trials.map Trial.bytes ++ stage.left = frames
  verdict : stage.good = true ↔ ∀ t ∈ trials, t.Expected s.link.maxFrameBytes

/-- A pass begins with nothing tried. -/
theorem underway_fresh : Underway s polls w [] { tally } polls w where
  tried := .none
  frames_left := rfl
  verdict := by simp

/-- Trying the next frame keeps a pass underway. -/
theorem Underway.more {left : List (List Byte)} {good : Bool} {t : Trial} {polls' : Nat}
    {next : World σ} (h : Underway s start first trials ⟨t.bytes :: left, good, tally⟩ polls w)
    (tried : (s.exchange t.bytes).drive s.hardware w polls =
      ⟨.finished t.result polls', next, t.trace⟩) :
    Underway s start first (trials ++ [t]) ⟨left, good && t.good s.link.maxFrameBytes, tally⟩
      polls' (s.sleep s.loopback.interFrame tally next) where
  tried := h.tried.more t tried
  frames_left := by simpa using h.frames_left
  verdict := by
    have earlier : good = true ↔ ∀ t ∈ trials, t.Expected s.link.maxFrameBytes := h.verdict
    simp [earlier, t.good_iff, or_imp, forall_and]

/-- What has been tried is the beginning of a pass. -/
theorem Underway.begins (h : Underway s start first trials stage polls w) :
    trials.map Trial.bytes <+: frames :=
  ⟨stage.left, h.frames_left⟩

theorem Setting.record_concat (t : Trial) : s.record tally (trials ++ [t]) =
    s.record tally trials ++
      [.checked t.bytes t.result t.trace, .slept s.loopback.interFrame tally] := by
  simp [Setting.record]

/-- Running on with a pass underway logs that pass and those after it. -/
theorem run_logged (sleeps : Nat) (h : Underway s start first trials stage polls w) :
    let (last, w', log) := s.run sleeps polls stage w
    Logged s start first stage.tally (s.record stage.tally trials ++ log) w' last := by
  fun_induction s.run sleeps polls stage w generalizing start first trials
  case case1 bytes left good tally w o cut =>
    have one_more : trials.map Trial.bytes ++ [bytes] <+: frames :=
      ⟨left, by simpa using h.frames_left⟩
    exact .cut h.tried one_more (outcome_eq cut)
  case case2 bytes left good tally w o result polls ended ms w' entries =>
    have tried := h.more (t := ⟨bytes, result, o.trace⟩) (outcome_eq ended)
    simpa [Setting.record_concat] using Logged.underway tried.tried tried.begins
  case case3 bytes left good tally w o result polls ended ms w' entries _ _ _ _ _ ran ih =>
    have others := ih (h.more (t := ⟨bytes, result, o.trace⟩) (outcome_eq ended))
    simpa [ran, Setting.record_concat, entries] using others
  case case4 good tally w next ms w' entries =>
    have all : trials.map Trial.bytes = frames := by simpa using h.frames_left
    exact .pass h.tried all (counted tally h.verdict) (.underway .none List.nil_prefix)
  case case5 good tally w next ms w' entries _ _ _ _ ran ih =>
    have all : trials.map Trial.bytes = frames := by simpa using h.frames_left
    have others := ih underway_fresh
    rw [ran] at others
    exact .pass h.tried all (counted tally h.verdict) others

/-- A run goes through all its sleeps, unless an exchange is cut. -/
theorem run_slept (sleeps polls : Nat) (stage : Stage) (w : World σ) :
    let (_, _, log) := s.run sleeps polls stage w
    slept log = sleeps + 1 ∨ ∃ bytes trace, .cut bytes trace ∈ log := by
  fun_induction s.run sleeps polls stage w
  case case1 => exact .inr ⟨_, _, List.mem_singleton_self _⟩
  case case2 entries => exact .inl (by simp [entries])
  case case3 entries _ _ _ _ _ ran ih =>
    rw [ran] at ih
    simpa [entries] using ih
  case case4 entries => exact .inl (by simp [entries])
  case case5 entries _ _ _ _ ran ih =>
    rw [ran] at ih
    simpa [entries] using ih

end Steps

/-- A frame that is too long is refused at once, and nothing is done for it. -/
theorem exchange_long {bytes : List Byte} (long : s.link.maxFrameBytes < bytes.length)
    (timeout polls : Nat) (w : World σ) :
    let o := (Transceiver.exchange s.link bytes bytes.length timeout).drive s.hardware w polls
    o.world = w ∧ o.trace = [] ∧
      o.value = if polls = 0 then .dropped else .finished (.error (.tx .frameTooLong)) polls := by
  have refused : Transceiver.exchange s.link bytes bytes.length timeout =
      .done (.error (.tx .frameTooLong)) := by
    simp only [Transceiver.exchange, if_pos long]
    rfl
  cases polls with
  | zero => simp [Call.drive]
  | succ polls => simp [refused, Call.drive, Call.advance, Outcome.map]

/-- However the self-test runs, over whatever hardware: its log is a sequence of passes over all
frames, each of which is counted, and counted as good exactly if each frame that the link carries
came back as it was sent and each longer one was refused. The counts wrap at 32 bits. As many passes
are counted as the sleeps allow, and a frame that is too long causes no access to the hardware. -/
theorem passes_tallied (s : Setting σ) (sleeps polls : Nat) (tally : Tally) (w : World σ) :
    let (last, w', log) := s.run sleeps polls { tally } w
    Logged s polls w tally log w' last ∧
    last.passes.toNat = (tally.passes.toNat + passes true log) % 2 ^ 32 ∧
    last.failures.toNat = (tally.failures.toNat + passes false log) % 2 ^ 32 ∧
    passes true log + passes false log = slept log / (frames.length + 1) ∧
    (slept log = sleeps + 1 ∨ ∃ bytes trace, .cut bytes trace ∈ log) ∧
    ∀ bytes polls w, s.link.maxFrameBytes < bytes.length →
      let o := (Transceiver.exchange s.link bytes bytes.length
        (max s.timing.txTimeout s.timing.rxTimeout)).drive s.hardware w polls
      o.world = w ∧ o.trace = [] ∧
        o.value = if polls = 0 then .dropped else .finished (.error (.tx .frameTooLong)) polls := by
  have fresh : Underway s polls w [] { tally } polls w := underway_fresh
  have logged := run_logged sleeps fresh
  exact ⟨logged, logged.tallied.1, logged.tallied.2, logged.completed,
    run_slept sleeps polls { tally } w, fun bytes polls w long => exchange_long long _ polls w⟩

end Joybus.Selftest
