import Joybus.Proofs.Engines
import Joybus.Proofs.Recovery
import Joybus.Proofs.Watching
import Mathlib.Data.List.DropRight

/-! Completions against deadlines: a wait for an engine ends with the last report since the cell was
armed, if there is one, and with the deadline only if there is none. -/
namespace Joybus.Transceiver

open Completion (Report Status)

variable {σ α ε : Type} {d : Direction} {l l' : Link} {h : Trace} {e : Event} {r : Option Report}

namespace Event

/-- The cell of direction `d` is armed. -/
def arms (d : Direction) : Event → Bool
  | .acted (.arm e) _ => e = d
  | _ => false

/-- The cell of direction `d` is disarmed. -/
def disarms (d : Direction) : Event → Bool
  | .acted (.disarm e) _ => e = d
  | _ => false

/-- A report of direction `d` is consumed. -/
def consumes (d : Direction) : Event → Bool
  | .consumed m => m.dir = d
  | _ => false

/-- The transfer of direction `d` is over: its report is consumed or its engine stopped. -/
def ends (d : Direction) (e : Event) : Bool := e.stops d || e.consumes d

end Event

namespace Trace

/-- What happened since the cell of direction `d` was armed last. -/
def sinceArmed (d : Direction) (h : Trace) : Trace := h.rtakeWhile (!·.arms d)

/-- What happened since the cell of direction `d` was disarmed last. -/
def sinceDisarmed (d : Direction) (h : Trace) : Trace := h.rtakeWhile (!·.disarms d)

def lastReport (d : Direction) (h : Trace) : Option Report :=
  (h.filterMap (Event.report? d)).getLast?

/-- The last report of direction `d` since its cell was armed, up to where the transfer was over. -/
def verdict (d : Direction) (h : Trace) : Option Report :=
  lastReport d ((h.sinceArmed d).takeWhile (!·.ends d))

/-- Nobody consumed a report of direction `d` since its cell was armed. -/
def Uncollected (d : Direction) (h : Trace) : Prop := ∀ e ∈ h.sinceArmed d, e.consumes d = false

/-- A delay of `us` microseconds began when the engine of direction `d` had not reported since its
cell was armed, which it was not again. -/
def Waited (d : Direction) (us : Nat) (h : Trace) : Prop :=
  ∃ pre post, h = pre ++ .delayed us :: post ∧ Unreported d (sinceArmed d pre) ∧
    ∀ e ∈ post, e.arms d = false

theorem sinceArmed_concat (he : e.arms d = false) :
    sinceArmed d (h ++ [e]) = h.sinceArmed d ++ [e] :=
  List.rtakeWhile_concat_pos _ _ _ (by simp [he])

theorem sinceArmed_arm (h : Trace) : sinceArmed d (h ++ [.acted (.arm d) ()]) = [] :=
  List.rtakeWhile_concat_neg _ _ _ (by simp [Event.arms])

theorem sinceDisarmed_concat (he : e.disarms d = false) :
    sinceDisarmed d (h ++ [e]) = h.sinceDisarmed d ++ [e] :=
  List.rtakeWhile_concat_pos _ _ _ (by simp [he])

theorem lastReport_concat (h : Trace) (e : Event) :
    lastReport d (h ++ [e]) = (e.report? d).or (h.lastReport d) := by
  cases he : e.report? d <;> simp [lastReport, he]

theorem unreported_of_lastReport (hr : h.lastReport d = none) : h.Unreported d := by
  rw [lastReport, List.getLast?_eq_none_iff, List.filterMap_eq_nil_iff] at hr
  exact hr

end Trace

open Trace

/-- An action that leaves the cell and the engine of direction `d` to their transfer. -/
def Action.Lets (d : Direction) (a : Action) : Prop :=
  a ≠ .arm d ∧ a ≠ .disarm d ∧ a ≠ .command (.abort d)

theorem Action.Lets.effect {a : Action} (ha : a.Lets d) (x : a.Answer) (l : Link) :
    (a.effect x l).status d = l.status d := by
  obtain ⟨arm, disarm, -⟩ := ha
  cases a with
  | command c => exact Link.status_deposit l c x d
  | arm e | disarm e =>
    refine congrArg _ (Completion.Cells.get_modify_of_ne _ _ ?_)
    rintro rfl
    contradiction
  | _ => rfl

theorem Action.Lets.event {a : Action} (ha : a.Lets d) (x : a.Answer) :
    (Event.acted a x).arms d = false ∧ (Event.acted a x).stops d = false := by
  obtain ⟨arm, disarm, abort⟩ := ha
  cases a with
  | command c => cases c <;> simp_all [Event.arms, Event.stops]
  | _ => simp_all [Event.arms, Event.stops]

/-- The cell was armed, its engine has not been stopped since, and the cell holds the last report
since, if none was consumed. -/
structure Charged (d : Direction) (l : Link) (h : Trace) : Prop where
  armed : ∃ e ∈ h, e.arms d
  running : ∀ e ∈ h.sinceArmed d, e.stops d = false
  counted : h.Uncollected d →
    l.status d = ((h.sinceArmed d).lastReport d).elim .pending .ofReport

namespace Charged

theorem concat (hc : Charged d l h) (ha : e.arms d = false) (hs : e.stops d = false)
    (hl : e.consumes d = false → l'.status d = (e.report? d).elim (l.status d) .ofReport) :
    Charged d l' (h ++ [e]) := by
  have since := sinceArmed_concat (h := h) ha
  refine ⟨?_, ?_, ?_⟩
  · obtain ⟨x, hx, hd⟩ := hc.armed
    exact ⟨x, List.mem_append_left _ hx, hd⟩
  · rw [since]
    exact List.forall_mem_append.2 ⟨hc.running, List.forall_mem_singleton.2 hs⟩
  · intro hu
    rw [Uncollected, since, List.forall_mem_append, List.forall_mem_singleton] at hu
    obtain ⟨before, now⟩ := hu
    rw [since, lastReport_concat, hl now, hc.counted before]
    cases e.report? d <;> rfl

theorem arm (l : Link) (h : Trace) :
    Charged d ((Action.arm d).effect () l) (h ++ [.acted (.arm d) ()]) := by
  refine ⟨⟨_, List.mem_append_right _ (List.mem_singleton.2 rfl), by simp [Event.arms]⟩, ?_, ?_⟩
  · rw [sinceArmed_arm]
    exact nofun
  · intro _
    rw [sinceArmed_arm]
    simp [Action.effect, Link.status, Completion.Cell.arm, lastReport]

end Charged

theorem keeps_charged (d : Direction) :
    Keeps (Action.Lets d) (fun _ => True) (Charged d) where
  act a ha x l h hc := hc.concat (ha.event x).1 (ha.event x).2 fun _ => ha.effect x l
  mark m l h hc := by
    refine hc.concat rfl rfl fun _ => ?_
    rw [Link.status_mark, Event.report?]
    split <;> rfl
  wake e l h hc := ⟨hc.armed, hc.running, by simpa using hc.counted⟩
  delay us l h hc := hc.concat rfl rfl fun _ => rfl
  take e _ r l h _ hc := by
    refine hc.concat rfl rfl fun other => ?_
    have ne : e ≠ d := by simpa [Event.consumes] using other
    exact Link.status_take_of_ne l ne.symm

theorem Trace.Uncollected.concat (hu : h.Uncollected d) (ha : e.arms d = false)
    (hc : e.consumes d = false) : Uncollected d (h ++ [e]) := by
  rw [Uncollected, sinceArmed_concat ha]
  exact List.forall_mem_append.2 ⟨hu, List.forall_mem_singleton.2 hc⟩

theorem keeps_uncollected (d : Direction) :
    Keeps (Action.Lets d) (· ≠ d) fun _ h => h.Uncollected d where
  act _ ha x _ _ hu := hu.concat (ha.event x).1 rfl
  mark _ _ _ hu := hu.concat rfl rfl
  wake _ _ _ hu := hu
  delay _ _ _ hu := hu.concat rfl rfl
  take _ he _ _ _ _ hu := hu.concat rfl (decide_eq_false he)

/-- The transfer for which the cell was armed goes on, and the cell holds the last report since. -/
def Accounted (d : Direction) (l : Link) (h : Trace) : Prop := Charged d l h ∧ h.Uncollected d

theorem keeps_accounted (d : Direction) : Keeps (Action.Lets d) (· ≠ d) (Accounted d) :=
  ((keeps_charged d).weaken (fun _ ha => ha) fun _ _ => trivial).and (keeps_uncollected d)

/-- The transfer is over, and `v` was its last report. -/
def Trace.Judged (d : Direction) (v : Option Report) (h : Trace) : Prop :=
  ∃ pre e post, h.sinceArmed d = pre ++ e :: post ∧ (∀ x ∈ pre, x.ends d = false) ∧
    e.ends d = true ∧ lastReport d pre = v

theorem Trace.Judged.verdict (hj : h.Judged d r) : h.verdict d = r := by
  obtain ⟨pre, e, post, since, before, ends, last⟩ := hj
  rw [Trace.verdict, since, List.takeWhile_append_of_pos (by simpa using before),
    List.takeWhile_cons_of_neg (by simp [ends]), List.append_nil, last]

/-- What further events keep as long as the cell is not armed. -/
theorem keeps_unless_armed {P : Trace → Prop}
    (concat : ∀ h e, e.arms d = false → P h → P (h ++ [e])) :
    Keeps (· ≠ .arm d) (fun _ => True) fun _ => P := by
  refine (Keeps.of_trace (E := fun e => e.arms d = false) ?_ concat).weaken ?_ fun _ hd => hd
  · intro e he
    cases e with
    | acted a x => exact he.elim
    | _ => rfl
  · intro a ha x
    cases a <;> simp_all [Event.arms]

theorem keeps_judged (d : Direction) (r : Option Report) :
    Keeps (· ≠ .arm d) (fun _ => True) fun _ h => h.Judged d r := by
  refine keeps_unless_armed ?_
  rintro h e ha ⟨pre, x, post, since, rest⟩
  exact ⟨pre, x, post ++ [e], by rw [sinceArmed_concat ha, since]; simp, rest⟩

namespace Accounted

theorem arm (l : Link) (h : Trace) :
    Accounted d ((Action.arm d).effect () l) (h ++ [.acted (.arm d) ()]) := by
  refine ⟨.arm l h, ?_⟩
  rw [Uncollected, sinceArmed_arm]
  exact nofun

theorem report (ha : Accounted d l h) : (l.status d).report? = (h.sinceArmed d).lastReport d := by
  rw [ha.1.counted ha.2]
  cases (h.sinceArmed d).lastReport d with
  | none => rfl
  | some r => exact Status.report?_ofReport r

/-- What ends the transfer decides it. -/
theorem judged (ha : Accounted d l h) (hn : e.arms d = false) (he : e.ends d = true) :
    Trace.Judged d ((h.sinceArmed d).lastReport d) (h ++ [e]) := by
  refine ⟨h.sinceArmed d, e, [], sinceArmed_concat hn, ?_, he, rfl⟩
  intro x hx
  rw [Event.ends, ha.1.running x hx, ha.2 x hx]
  rfl

end Accounted

/-- What a wait for the engine of direction `d` ends with: a report that was the last one, after
which the cell is unused, or none since the cell was armed. -/
def Concludes (d : Direction) : Option Report → Link → Trace → Prop
  | some r, l, h => h.Judged d (some r) ∧ l.status d = .notStarted
  | none, l, h => Accounted d l h ∧ (h.sinceArmed d).lastReport d = none

theorem keeps_waited (d : Direction) (us : Nat) :
    Keeps (· ≠ .arm d) (fun _ => True) fun _ h => h.Waited d us := by
  refine keeps_unless_armed ?_
  rintro _ e ha ⟨pre, post, rfl, unreported, rest⟩
  exact ⟨pre, post ++ [e], by simp, unreported,
    List.forall_mem_append.2 ⟨rest, List.forall_mem_singleton.2 ha⟩⟩

theorem concludes_look (ha : Accounted d l h) :
    Concludes d (l.status d).report? (l.take d) (h ++ consumption d (l.status d).report?) := by
  cases hr : (l.status d).report? with
  | none =>
    rw [Link.take_eq_self hr, consumption, List.append_nil]
    exact ⟨ha, ha.report.symm.trans hr⟩
  | some r =>
    refine ⟨?_, ?_⟩
    · have judged := ha.judged (e := .consumed ⟨d, r⟩) rfl (by simp [Event.ends, Event.consumes])
      rwa [← ha.report, hr] at judged
    · rw [Link.status_take_self, Status.isFinished, hr]
      rfl

/-- A wait for the engine that is cut began before its first report. -/
theorem completion_concludes (us : Nat) (ha : Accounted d l h) :
    (Call.completion d us).Ensures (Concludes d)
      (fun _ h' => (h.sinceArmed d).Unreported d ∧ h'.Waited d us) l h := by
  have hl := (keeps_accounted d).wake d l h ha
  rw [Call.ensures_completion]
  refine ⟨?_, ?_⟩
  · intro r hr
    have look := concludes_look hl
    rw [Link.status_leaveWaker, hr] at look
    exact look
  · intro hr ms
    have hm := (keeps_accounted d).marks ms ((keeps_accounted d).delay us _ h hl)
    rw [Link.markTrace_congr (Link.status_leaveWaker l d)] at hm
    refine ⟨?_, concludes_look hm⟩
    have unreported := unreported_of_lastReport (ha.report.symm.trans hr)
    have waited : Waited d us (h ++ [.delayed us]) := ⟨h, [], rfl, unreported, nofun⟩
    have keeps := keeps_waited d us
    refine (keeps.all ?_ (keeps.marks (l := l) ms waited)).mono fun _ _ hw => ⟨unreported, hw⟩
    cases d <;> simp [Action.abandon, Action.setIdle]

/-- The cell of direction `d` is unused unless its engine has reported since it was disarmed. -/
def Vacated (d : Direction) (l : Link) (h : Trace) : Prop :=
  (h.sinceDisarmed d).Unreported d → l.status d = .notStarted

theorem Vacated.concat (hv : Vacated d l h) (hd : e.disarms d = false)
    (hl : e.report? d = none → l.status d = .notStarted → l'.status d = .notStarted) :
    Vacated d l' (h ++ [e]) := by
  intro hu
  rw [Unreported, sinceDisarmed_concat hd, List.forall_mem_append,
    List.forall_mem_singleton] at hu
  exact hl hu.2 (hv hu.1)

theorem keeps_vacated (d : Direction) : Keeps (Action.Lets d) (fun _ => True) (Vacated d) where
  act a ha x l h hv := by
    refine hv.concat ?_ fun _ hl => (ha.effect x l).trans hl
    obtain ⟨-, disarm, -⟩ := ha
    cases a <;> simp_all [Event.disarms]
  mark m l h hv := by
    refine hv.concat rfl fun hm hl => ?_
    rw [Event.report?] at hm
    rw [Link.status_mark]
    split <;> simp_all
  wake e l h hv hu := by
    rw [Link.status_leaveWaker]
    exact hv hu
  delay us l h hv := hv.concat rfl fun _ hl => hl
  take e _ r l h _ hv := by
    refine hv.concat rfl fun _ hl => ?_
    by_cases he : d = e
    · subst he
      rw [Link.status_take_self, hl]
      rfl
    · rw [Link.status_take_of_ne l he, hl]

/-- How a call that waited for the engine of direction `d` ended. -/
inductive Decided (d : Direction) (fault late : ε) : Except ε α → Link → Trace → Prop where
  | done {a : α} {l : Link} {h : Trace} : h.Judged d (some .done) → l.status d = .notStarted →
      Decided d fault late (.ok a) l h
  | fault {l : Link} {h : Trace} : h.Judged d (some .error) → Vacated d l h →
      Decided d fault late (.error fault) l h
  | late {l : Link} {h : Trace} : h.Judged d none → Vacated d l h →
      Decided d fault late (.error late) l h

section Calls
variable {c : LinkConfig} {words : List Word} {len timeout : Nat} {R : Link → Trace → Prop}

/-- A transfer that is given up is decided when its engine is stopped. -/
theorem giveUp_judged (a : α) (hj : Trace.Judged d r (h ++ [.acted (.command (.abort d)) ()])) :
    (do Call.performAll (Action.abandon d); Call.reset d; return a : Call α).Ensures
      (fun x l h => x = a ∧ h.Judged d r ∧ Vacated d l h) R l h := by
  have judged := keeps_judged d r
  rw [Call.ensures_bind, Call.ensures_performAll, Action.abandon]
  refine judged.reach_act (fun _ => hj) fun _ l h hj => ?_
  have both := judged.both (keeps_vacated d)
  refine both.reach_act ?_ fun _ l h hj => ?_
  · intro x
    refine ⟨judged.act (.disarm d) (by simp) x l h hj, fun _ => ?_⟩
    simp [Action.effect, Link.status, Completion.Cell.disarm]
  refine both.reach_act (fun x => both.act _ ?_ x l h hj) fun _ l h hj => ?_
  · cases d <;> simp [Action.setIdle, Action.Lets]
  · exact both.perform (by simp [Action.Lets]) hj fun _ _ _ hj => ⟨rfl, hj⟩

theorem giveUp_fault {fault late : ε} (hj : h.Judged d (some .error)) :
    (do Call.performAll (Action.abandon d); Call.reset d; return .error fault :
      Call (Except ε α)).Ensures (Decided d fault late) R l h := by
  have stopped := (keeps_judged d (some .error)).act (.command (.abort d)) (by simp) () l h hj
  refine (giveUp_judged _ stopped).imp ?_
  rintro _ l h ⟨rfl, judged, vacated⟩
  exact .fault judged vacated

theorem giveUp_late {fault late : ε} (hc : Concludes d none l h) :
    (do Call.performAll (Action.abandon d); Call.reset d; return .error late :
      Call (Except ε α)).Ensures (Decided d fault late) R l h := by
  obtain ⟨ha, hr⟩ := hc
  have stopped := ha.judged (e := .acted (.command (.abort d)) ()) rfl
    (by simp [Event.ends, Event.stops])
  rw [hr] at stopped
  refine (giveUp_judged _ stopped).imp ?_
  rintro _ l h ⟨rfl, judged, vacated⟩
  exact .late judged vacated

theorem sendDma_decided (words : List Word) (timeout : Nat) :
    (sendDma words timeout).Ensures (Decided .tx .hardwareFault .timedOut)
      (fun _ h => h.Waited .tx timeout) l h := by
  have keeps := keeps_accounted .tx
  refine keeps_true.stage trivial trivial trivial fun _ _ l h _ => ?_
  refine keeps.reach (fun _ => .arm l h) fun _ l h ha => ?_
  refine keeps.perform (by simp [Action.Lets]) ha fun _ l h ha => ?_
  refine keeps.perform (by simp [Action.Lets]) ha fun _ l h ha => ?_
  refine keeps.perform (by simp [Action.Lets]) ha fun _ l h ha => ?_
  refine keeps.perform (by simp [Action.Lets]) ha fun _ l h ha => ?_
  rw [Call.ensures_bind]
  refine (completion_concludes timeout ha).mono ?_ fun _ _ hw => hw.2
  intro r l h hr
  cases r with
  | none => exact giveUp_late hr
  | some r =>
    cases r with
    | error => exact giveUp_fault hr.1
    | done => exact .done ((keeps_judged .tx _).act (.setTx .idle) (by simp) () l h hr.1) hr.2

/-- Of a call that starts no engine nothing is asked. -/
theorem Trace.Unstarted.elim {p : Prop} (hu : h.Unstarted d) (hs : h.Started d) : p := by
  obtain ⟨e, he, hs⟩ := hs
  exact (hu e he hs).elim

theorem keeps_unstarted (d : Direction) :
    Keeps (Action.StartsNot d) (fun _ => True) fun _ h => h.Unstarted d :=
  keeps_forall fun _ => not_starts_of_passive

theorem sendWords_decided (hm : c.mode = .dma) (hu : h.Unstarted .tx) :
    (sendWords c words timeout).Ensures
      (fun r l h => h.Started .tx → Decided .tx .hardwareFault .timedOut r l h)
      (fun _ h => h.Started .tx → h.Waited .tx timeout) l h := by
  have keeps := keeps_unstarted .tx
  refine keeps.perform (by simp) hu fun s l h hu => ?_
  split
  · exact hu.elim
  refine keeps.perform (by simp) hu fun s l h hu => ?_
  split
  · exact hu.elim
  have turn : (takeBusTurn c).Uses (·.StartsNot .tx) fun p undo => p.IsNap ∧ undo = [] :=
    takeBusTurn_uses (by simp) (by simp) (by simp) fun _ => ⟨trivial, rfl⟩
  have turned := keeps.uses (l := l) turn (fun _ ha => ha) (fun _ _ hw => hw.1.within)
    (by rintro p undo ⟨-, rfl⟩ l h hu; exact hu) hu
  rw [Call.ensures_bind]
  refine turned.mono ?_ fun _ _ hu => Unstarted.elim hu
  intro taken l h hu
  cases taken with
  | false => exact hu.elim
  | true =>
    simp only [if_true, hm]
    exact (sendDma_decided words timeout).mono (fun _ _ _ hd _ => hd) fun _ _ hw _ => hw

/-- A send that starts the engine is decided by the engine's reports. -/
theorem send_decided (hm : c.mode = .dma) (bytes : List Byte) (timeout : Nat) :
    (send c bytes timeout).Ensures
      (fun r l h => h.Started .tx → Decided .tx .hardwareFault .timedOut r l h)
      (fun _ h => h.Started .tx → h.Waited .tx timeout) l [] := by
  have hu : Trace.Unstarted .tx [] := nofun
  unfold send
  split
  · exact hu.elim
  · exact hu.elim
  · rw [hm]
    refine (keeps_unstarted .tx).perform (by simp) hu fun n l h hu => ?_
    split
    · exact hu.elim
    · exact sendWords_decided hm hu

variable {p : Prop}

/-- What follows from there being no report yet follows later on, too. -/
theorem keeps_unreported (d : Direction) (p : Prop) :
    Keeps (· ≠ .arm d) (fun _ => True) fun _ h => (h.sinceArmed d).Unreported d → p := by
  refine keeps_unless_armed (P := fun h => (h.sinceArmed d).Unreported d → p) ?_
  intro h e ha hp hu
  rw [Unreported, sinceArmed_concat ha, List.forall_mem_append] at hu
  exact hp hu.1

theorem finishDma_decided (len timeout : Nat)
    (hw : Accounted .rx l h ∧ ((h.sinceArmed .rx).Unreported .rx → p)) :
    (finishDma c len timeout).Ensures (Decided .rx .hardwareFault .timedOut) (fun _ _ => p)
      l h := by
  have keeps := (keeps_accounted .rx).both
    ((keeps_unreported .rx p).weaken (fun _ ha => ha) fun _ _ => trivial)
  refine keeps.perform (by simp [Action.Lets]) hw fun _ l h hw => ?_
  obtain ⟨ha, hp⟩ := hw
  rw [Call.ensures_bind]
  refine (completion_concludes timeout ha).mono ?_ fun _ _ hw => hp hw.1
  intro r l h hr
  cases r with
  | none => exact giveUp_late hr
  | some r =>
    cases r with
    | error => exact giveUp_fault hr.1
    | done =>
      have judged := keeps_judged .rx (some .done)
      have idle := judged.act (.setRx .idle) (by simp) () l h hr.1
      exact .done (judged.act (.fetch _) (by simp) _ l _ idle) hr.2

/-- A receive that is waited for is decided by the reports of its engine since it was armed. It is
cut only if there was none when the wait began. -/
theorem finishReceive_decided (hm : c.mode = .dma) (ha : Accounted .rx l h) (hl : len ≠ 0)
    (he : l.expected = some len) (timeout : Nat) :
    (finishReceive c timeout).Ensures (Decided .rx .hardwareFault .timedOut)
      (fun _ _ => (h.sinceArmed .rx).Unreported .rx) l h := by
  have keeps := (keeps_accounted .rx).both
    ((keeps_unreported .rx ((h.sinceArmed .rx).Unreported .rx)).weaken (fun _ ha => ha)
      fun _ _ => trivial)
  rw [finishReceive, Call.ensures_bind, Call.ensures_expected, Action.Ensures, he]
  have read := keeps.act .expected (by simp [Action.Lets]) (some len) l h ⟨ha, id⟩
  refine keeps.perform (by simp [Action.Lets]) read fun _ l h hw => ?_
  simp only [if_neg hl, hm]
  exact finishDma_decided len timeout hw

end Calls

section Arming
variable {c : LinkConfig} {len : Nat}

theorem armDma_charged (len : Nat) :
    (armDma c len).Ensures (fun r l h => r = .ok () → Charged .rx l h) (fun _ _ => True) l h := by
  have keeps := keeps_charged .rx
  refine keeps_true.perform trivial trivial fun _ l h _ => ?_
  split
  · exact nofun
  refine keeps.reach (fun _ => .arm l h) fun _ l h hc => ?_
  rw [Call.ensures_bind, Call.ensures_startRx]
  refine keeps.reach_act (fun x => keeps.act _ (by simp [Action.Lets]) x l h hc)
    fun _ l h hc => ?_
  refine keeps.perform (by simp [Action.Lets]) hc fun _ l h hc => ?_
  have published : (publish c len (Action.abandon .rx)).Uses (Action.Lets .rx) fun p _ => p.IsNap :=
    publish_uses (by simp [Action.Lets]) fun _ => trivial
  rw [Call.ensures_bind]
  refine (keeps.naps published hc).imp ?_
  intro taken l h hc
  cases taken with
  | true => exact fun _ => keeps.act (.setExpected (some len)) (by simp [Action.Lets]) () l h hc
  | false =>
    rw [if_neg (by simp), Call.ensures_bind, Call.ensures_performAll]
    refine ensuresAll_true.mono fun l h _ => ?_
    exact keeps_true.perform trivial trivial fun _ _ _ _ => nofun

theorem armReceive_charged (c : LinkConfig) (len : Nat) :
    (armReceive c len).Ensures
      (fun r l h => r = .ok () → c.mode = .dma → len ≠ 0 → Charged .rx l h) (fun _ _ => True)
      l h := by
  unfold armReceive
  split
  · exact nofun
  refine keeps_true.perform trivial trivial fun expected l h _ => ?_
  split
  · exact nofun
  refine keeps_true.perform trivial trivial fun status l h _ => ?_
  split
  · exact nofun
  split
  · rename_i hl
    exact fun _ _ hn => (hn hl).elim
  · cases hm : c.mode with
    | dma => exact (armDma_charged len).imp fun _ _ _ hc hr _ _ => hc hr
    | fifo => exact (keeps_true.always _ trivial).mono (fun _ _ _ _ _ => nofun) fun _ _ _ => trivial

theorem not_lets_of_tx (a : Action) (ha : a.side = .tx) : a.Lets .rx := by
  refine ⟨?_, ?_, ?_⟩ <;> rintro rfl <;> exact Direction.noConfusion ha

/-- A receive that is armed with the engine is under way. -/
theorem kept_charged : Kept fun c l h => Noted l ∧ (Receiving c l → Charged .rx l h) where
  send c bytes timeout l h := by
    rintro ⟨hn, hc⟩
    have onSide := send_onSide c bytes timeout
    have expected := (keeps_expected l.expected).onSide (h := h) onSide not_setExpected_of_tx
      trivial rfl
    have charged := ((keeps_charged .rx).given (Receiving c l)).onSide onSide not_lets_of_tx trivial
      hc
    have receiving : ∀ {l' : Link}, l'.expected = l.expected → Receiving c l' → Receiving c l := by
      rintro l' he ⟨hm, n, hl⟩
      exact ⟨hm, n, he.symm.trans hl⟩
    refine (kept_noted.send c bytes timeout l h hn).and ((expected.and charged).mono ?_ ?_)
    · rintro _ l' h' ⟨he, hc⟩ hr
      exact hc (receiving he hr)
    · rintro l' h' ⟨he, hc⟩ hr
      exact hc (receiving he hr)
  arm c len l h := by
    rintro ⟨hn, hc⟩
    refine (kept_noted.arm c len l h hn).and ?_
    cases he : l.expected with
    | some n =>
      unfold armReceive
      split
      · exact hc
      rw [Call.ensures_bind, Call.ensures_expected, Action.Ensures, he]
      exact fun hr => (keeps_charged .rx).act .expected (by simp [Action.Lets]) _ l h (hc hr)
    | none =>
      refine ((armReceive_arms c len hn).and (armReceive_charged c len)).mono ?_ ?_
      · rintro r l' h' ⟨arms, charged⟩ hr
        cases r with
        | error e => exact (not_receiving_of_none (arms.1.trans he) hr).elim
        | ok =>
          obtain ⟨hm, n, hn⟩ := hr
          have same := Option.some.inj (arms.2.1.symm.trans hn)
          exact charged rfl hm (by omega)
      · rintro l' h' ⟨⟨he, -⟩, -⟩ hr
        exact (not_receiving_of_none he hr).elim
  finish c timeout l h := by
    rintro ⟨hn, -⟩
    refine (kept_noted.finish c timeout l h hn).and ((finishReceive_notes c timeout hn).mono ?_ ?_)
    · exact fun _ _ _ hl hr => (not_receiving_of_none hl.1 hr).elim
    · exact fun _ _ hl hr => (not_receiving_of_none hl.1 hr).elim
  cancel c l h := by
    rintro ⟨hn, -⟩
    refine ((kept_noted.cancel c l h hn).and (cancelReceive_clears c)).mono ?_ fun _ _ hf => hf.1
    rintro _ l h ⟨noted, he⟩
    exact ⟨noted, fun hr => (not_receiving_of_none he hr).elim⟩
  marks c ms l h := by
    rintro ⟨hn, hc⟩
    refine ⟨kept_noted.marks c ms l h hn, fun hr => (keeps_charged .rx).marks ms (hc ?_)⟩
    simpa [Receiving] using hr
  take c d l h := by
    rintro ⟨hn, hc⟩
    exact ⟨hn, fun hr => (keeps_charged .rx).consumption trivial (hc hr)⟩
  recreate c c' l h _ := by
    intro _ _ _ _
    exact ⟨noted_of_idle rfl, fun hr => (not_receiving_of_none rfl hr).elim⟩

end Arming

/-- How a call that waited for the engine of direction `d` ended with `r`, by the last report since
the cell was armed and whether the delay was over. -/
structure Ruled (d : Direction) (fault late : ε) (r : Except ε α) (expired : Bool) (l : Link)
    (h : Trace) : Prop where
  ok_iff : (∃ a, r = .ok a) ↔ h.verdict d = some .done
  fault_iff : r = .error fault ↔ h.verdict d = some .error
  late_iff : r = .error late ↔ expired = true ∧ h.verdict d = none
  unused : (∃ a, r = .ok a) ∨ (h.sinceDisarmed d).Unreported d → l.status d = .notStarted

theorem Decided.ruled {fault late : ε} {r : Except ε α} {expired : Bool}
    (hd : Decided d fault late r l h) (hn : fault ≠ late) (ho : r = .error late → expired = true) :
    Ruled d fault late r expired l h := by
  cases hd with
  | done judged unused =>
    exact ⟨by simp [judged.verdict], by simp [judged.verdict], by simp [judged.verdict],
      fun _ => unused⟩
  | fault judged vacated =>
    exact ⟨by simp [judged.verdict], by simp [judged.verdict], by simp [judged.verdict, hn],
      fun hu => vacated (hu.resolve_left nofun)⟩
  | late judged vacated =>
    exact ⟨by simp [judged.verdict], by simp [judged.verdict, hn.symm],
      by simp [judged.verdict, ho], fun hu => vacated (hu.resolve_left nofun)⟩

/-- A completion outranks the deadline. A send that has started the engine, and a wait for an armed
receive whose report nobody else has consumed, end with success, with a fault or with a timeout just
as the last report since the cell was armed is a success, an error or missing; a timeout means that
the delay was over, too. The cell is unused then, but for what an engine reports after it was
disarmed. A call that is cut has not seen its delay end, and its wait began before the first
report. Over hardware whose delays end each call returns. -/
theorem completion_outranks_deadline (H : Hardware σ) (config : LinkConfig) (hardware : σ)
    (ops : List Operation) :
    let run := (Session.start config hardware).run H ops
    let s := run.2
    let past : Trace := (run.1.map Prod.snd).flatten
    s.config.mode = .dma →
    (∀ bytes timeout polls,
      let o := s.drive H (send · bytes timeout) polls
      let expired := (send s.config bytes timeout).elapses H s.world polls
      o.trace.Started .tx →
        (∀ r left, o.value = .finished r left →
          Ruled .tx .hardwareFault .timedOut r expired o.world.link o.trace) ∧
        (o.value = .dropped → expired = false ∧ o.trace.Waited .tx timeout)) ∧
    (∀ len timeout polls, s.world.link.expected = some len → len ≠ 0 → past.Uncollected .rx →
      let o := s.drive H (finishReceive · timeout) (polls + 1)
      let expired := (finishReceive s.config timeout).elapses H s.world (polls + 1)
      (∀ r left, o.value = .finished r left →
        Ruled .rx .hardwareFault .timedOut r expired o.world.link (past ++ o.trace)) ∧
      (o.value = .dropped → expired = false ∧ (past.sinceArmed .rx).Unreported .rx)) ∧
    (H.Timely → ∀ timeout,
      (∀ bytes, ∃ o, (send s.config bytes timeout).Returns H s.world o) ∧
      ∃ o, (finishReceive s.config timeout).Returns H s.world o) := by
  intro run s past hm
  have start : Noted {} ∧ (Receiving config {} → Charged .rx {} []) :=
    ⟨noted_of_idle rfl, fun hr => (not_receiving_of_none rfl hr).elim⟩
  have kept := kept_charged.run (s := Session.start config hardware) H start ops
  rw [List.nil_append] at kept
  refine ⟨?_, ?_, fun ht timeout => ⟨fun bytes => ht.returns _ _, ht.returns _ _⟩⟩
  · intro bytes timeout polls o expired started
    have ensures := send_decided (l := s.world.link) hm bytes timeout
    refine ⟨?_, ?_⟩
    · intro r left value
      have decided := Call.Ensures.finished H ensures value
      refine (decided started).ruled nofun ?_
      exact fun late => (send_expires hm).elapses late (fun _ => started) value
    · intro value
      refine ⟨Call.elapses_of_dropped value, ?_⟩
      cases polls with
      | zero => exact Trace.Unstarted.elim (h := []) nofun started
      | succ polls => exact Call.Ensures.dropped H ensures value started
  · intro len timeout polls expected hl uncollected o expired
    obtain ⟨n, rfl⟩ := Nat.exists_eq_succ_of_ne_zero hl
    have accounted : Accounted .rx s.world.link past := ⟨kept.2 ⟨hm, n, expected⟩, uncollected⟩
    have ensures := finishReceive_decided hm accounted hl expected timeout
    refine ⟨?_, ?_⟩
    · intro r left value
      have decided := Call.Ensures.finished H ensures value
      refine decided.ruled nofun ?_
      exact fun late => (finishReceive_expires (K := False) hm).elapses late nofun value
    · intro value
      exact ⟨Call.elapses_of_dropped value, Call.Ensures.dropped H ensures value⟩

/-- Engines that report at the delays alone. Each delay is looked at twice; the second look finds it
over, and it is then that the transmit engine reports its success. -/
def tiedFinish : Bench.Script where
  tx := { starts.default := .never, programCounter := 7, origin := 3 }
  rx := { starts.default := .never, programCounter := 9, origin := 5 }
  delays.default := [.pending, .mark ⟨.tx, .done⟩]

/-- The same look ends the delay of a send, whose engine reports with it, and that of a receive,
whose engine does not. -/
theorem completion_outranks_deadline_tied :
    let run := (Session.start {} tiedFinish).run Bench.bench [.request (.arm 2) 1]
    let s := run.2
    let sent := s.drive Bench.bench (send · [0x01] 10) 2
    let received := s.drive Bench.bench (finishReceive · 10) 2
    sent.value = .finished (.ok ()) 1 ∧ sent.trace.verdict .tx = some .done ∧
      sent.world.link.status .tx = .notStarted ∧
      received.value = .finished (.error .timedOut) 1 ∧
      (finishReceive s.config 10).elapses Bench.bench s.world 2 = true ∧
      received.world.link.status .rx = .notStarted := by
  intro run s sent received
  have success : sent.value = .finished (.ok ()) 1 := by decide +kernel
  have timeout : received.value = .finished (.error .timedOut) 1 := by decide +kernel
  have started : ∃ e ∈ sent.trace, e.Starts .tx := by decide +kernel
  have uncollected : ∀ e ∈ Trace.sinceArmed .rx (run.1.map Prod.snd).flatten,
      e.consumes .rx = false := by decide +kernel
  obtain ⟨sends, receives, -⟩ := completion_outranks_deadline Bench.bench {} tiedFinish
    [.request (.arm 2) 1] rfl
  obtain ⟨ok_iff, -, -, unused⟩ := (sends [0x01] 10 2 started).1 _ 1 success
  obtain ⟨-, -, late_iff, vacated⟩ :=
    (receives 2 10 1 (by decide +kernel) (by decide) uncollected).1 _ 1 timeout
  have quiet : ∀ e ∈ Trace.sinceDisarmed .rx ((run.1.map Prod.snd).flatten ++ received.trace),
      e.report? .rx = none := by decide +kernel
  exact ⟨success, ok_iff.1 ⟨(), rfl⟩, unused (.inl ⟨(), rfl⟩), timeout, (late_iff.1 rfl).1,
    vacated (.inr quiet)⟩

end Joybus.Transceiver
