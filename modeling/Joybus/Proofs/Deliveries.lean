import Joybus.Proofs.Registers
import Mathlib.Data.List.Induction

/-! Completions of two claimed channels under any interleaving of calls, hardware and service
routine: each is reported once, to its own direction, unless its transfer is given up. -/
namespace Joybus.Chip

open Transceiver (Mark)

variable {k : Direction → Channel} {d e : Direction} {c : Chip}

/-- Where the caller stands: between two calls, or behind an access of a call that gives up a
transfer. -/
inductive Stage where
  | free
  | muted (d : Direction)
  | ceased (d : Direction)
  | cleared (d : Direction)
deriving DecidableEq, Repr

/-- The direction whose transfer is being given up. -/
def Stage.leaving : Stage → Option Direction
  | free => none
  | muted d | ceased d | cleared d => some d

/-- Two channels at work. -/
structure Engines where
  chip : Chip
  stage : Stage

/-- What is seen of the channels. -/
inductive Incident where
  | started (d : Direction)
  | finished (d : Direction) (failed : Bool)
  /-- A call that gives up a transfer begins. -/
  | aborting (d : Direction)
  /-- It returns. -/
  | aborted (d : Direction)
  /-- The service routine makes reports. -/
  | served (marks : List Mark)
deriving DecidableEq, Repr

/-- What happened, oldest first. -/
abbrev History := List Incident

/-- One access of a caller, one transfer ended by the hardware, or one run of the service routine.
Giving up a transfer takes four accesses, and anything but another call may come between them. -/
inductive Step (k : Direction → Channel) : Engines → Option Incident → Engines → Prop where
  | start (c : Chip) (d : Direction) (t : Transfer) :
      Step k ⟨c, .free⟩ (some (.started d)) ⟨((c.arm (k d) t).move (k d) t).2, .free⟩
  | mute (c : Chip) (d : Direction) :
      Step k ⟨c, .free⟩ (some (.aborting d)) ⟨c.mute (k d).id, .muted d⟩
  | cease (c : Chip) (d : Direction) (spurious : Bool) :
      Step k ⟨c, .muted d⟩ none ⟨c.cease (k d).id spurious, .ceased d⟩
  | clear (c : Chip) (d : Direction) :
      Step k ⟨c, .ceased d⟩ none ⟨c.acknowledge (mask (k d).id), .cleared d⟩
  | unmute (c : Chip) (d : Direction) :
      Step k ⟨c, .cleared d⟩ (some (.aborted d)) ⟨c.unmute (k d).id, .free⟩
  | finish (c : Chip) (s : Stage) (d : Direction) (failed : Bool)
      (busy : (c.port (k d).id).busy = true) :
      Step k ⟨c, s⟩ (some (.finished d failed)) ⟨c.raise (k d).id failed, s⟩
  | serve (c : Chip) (s : Stage) (ms : List Mark) (made : c.service.reports = c.reports ++ ms) :
      Step k ⟨c, s⟩ (some (.served ms)) ⟨c.service, s⟩
  /-- What has nothing to do with the channels: other accesses, and answers from outside. -/
  | other (c : Chip) (s : Stage) (script : Bench.Script) (accesses : List Access) :
      Step k ⟨c, s⟩ none ⟨{ c with script, accesses }, s⟩

/-- The steps from one state to another, with what is seen of them. -/
inductive Runs (k : Direction → Channel) (s : Engines) : History → Engines → Prop where
  | refl : Runs k s [] s
  | step {h : History} {t u : Engines} {i : Option Incident} :
      Runs k s h t → Step k t i u → Runs k s (h ++ i.toList) u

/-- The channels are claimed, one for each direction. -/
structure Wired (k : Direction → Channel) (c : Chip) : Prop where
  claimed : ∀ d, c.claimed d = some (k d).id
  apart : (k .tx).id ≠ (k .rx).id

theorem Wired.ne (hw : Wired k c) (h : e ≠ d) : (k e).id ≠ (k d).id := by
  have apart := hw.apart
  cases d <;> cases e <;> simp_all [Ne, eq_comm]

/-- How the latest transfer of a direction stands. -/
inductive Standing where
  /-- There is none, or it was reported or given up. -/
  | idle
  | running
  | ended (failed : Bool)
  /-- It was started while the one before was ended and not reported yet. -/
  | overtaking
  /-- It is being given up. -/
  | leaving
deriving DecidableEq, Repr

namespace Standing

def start : Standing → Standing
  | ended _ | overtaking => overtaking
  | _ => running

def finish (failed : Bool) : Standing → Standing
  | running | overtaking => ended failed
  | s => s

def leave : Standing → Standing
  | leaving => idle
  | s => s

def serve : Standing → Standing
  | ended _ => idle
  | overtaking => running
  | s => s

/-- The reports that are due. -/
def reports : Standing → List Completion.Report
  | ended failed => [if failed then .error else .done]
  | overtaking => [.done]
  | _ => []

/-- What an incident makes of the latest transfer of direction `d`. -/
def next (d : Direction) (s : Standing) : Incident → Standing
  | .started e => if e = d then s.start else s
  | .finished e failed => if e = d then s.finish failed else s
  | .aborting e => if e = d then leaving else s
  | .aborted e => if e = d then s.leave else s
  | .served _ => s.serve

/-- What the registers hold about the channel. -/
def Accords (d : Direction) (stage : Stage) (p : Port) : Standing → Prop
  | idle => stage.leaving ≠ some d ∧ p.busy = false ∧ p.raised = false ∧ p.routed = true
  | running => stage.leaving ≠ some d ∧ p = ⟨true, false, false, true⟩
  | ended failed => stage.leaving ≠ some d ∧ p = ⟨false, failed, true, true⟩
  | overtaking => stage.leaving ≠ some d ∧ p = ⟨true, false, true, true⟩
  | leaving => stage.leaving = some d ∧ p.routed = false ∧
      (stage = .ceased d → p.busy = false) ∧
      (stage = .cleared d → p.busy = false ∧ p.raised = false)

end Standing

/-- How the latest transfer of a direction stands after all that happened. -/
def History.standing (h : History) (d : Direction) : Standing :=
  h.foldl (Standing.next d) .idle

theorem standing_append (h since : History) :
    (h ++ since).standing d = since.foldl (Standing.next d) (h.standing d) := by
  simp [History.standing]

@[simp] theorem standing_concat (h : History) (i : Incident) :
    (h ++ [i]).standing d = (h.standing d).next d i := by
  simp [History.standing]

section Steps
variable {s t : Engines} {i : Option Incident} {h : History}

/-- The registers accord with what happened. -/
def Engines.Accords (k : Direction → Channel) (h : History) (s : Engines) : Prop :=
  ∀ d, (h.standing d).Accords d s.stage (s.chip.port (k d).id)

theorem wired_step (hs : Step k s i t) (hw : Wired k s.chip) : Wired k t.chip := by
  refine ⟨fun d => ?_, hw.apart⟩
  rw [← hw.claimed d]
  cases hs with
  | other => cases d <;> rfl
  | _ => simp

/-- One step keeps the registers of a channel in accord with how its latest transfer stands. -/
theorem Standing.Accords.step {st : Standing} (hw : Wired k s.chip) (hs : Step k s i t)
    (hd : st.Accords d s.stage (s.chip.port (k d).id)) :
    (i.toList.foldl (Standing.next d) st).Accords d t.stage (t.chip.port (k d).id) := by
  cases hs with
  | start c e t =>
    by_cases he : d = e
    · subst he
      cases st <;>
        simp_all [Standing.Accords, Standing.next, Standing.start, Stage.leaving]
    · have hp := port_arm_of_ne (c := c) (k e) t (hw.ne he)
      simp_all [Standing.next, Ne.symm he]
  | mute c e =>
    by_cases he : d = e
    · subst he
      simp [Standing.Accords, Standing.next, Stage.leaving]
    · have hp := port_mute_of_ne (c := c) (hw.ne he)
      cases st <;>
        simp_all [Standing.Accords, Standing.next, Stage.leaving, Ne.symm he]
  | cease c e spurious =>
    by_cases he : d = e
    · subst he
      cases st <;> simp_all [Standing.Accords, Stage.leaving]
    · have hp := port_cease_of_ne (c := c) spurious (hw.ne he)
      cases st <;> simp_all [Standing.Accords, Stage.leaving, Ne.symm he]
  | clear c e =>
    by_cases he : d = e
    · subst he
      cases st <;> simp_all [Standing.Accords, Stage.leaving]
    · have hp := port_acknowledge_of_ne (c := c) (hw.ne he)
      cases st <;> simp_all [Standing.Accords, Stage.leaving, Ne.symm he]
  | unmute c e =>
    by_cases he : d = e
    · subst he
      cases st <;>
        simp_all [Standing.Accords, Standing.next, Standing.leave, Stage.leaving]
    · have hp := port_unmute_of_ne (c := c) (hw.ne he)
      cases st <;>
        simp_all [Standing.Accords, Standing.next, Stage.leaving, Ne.symm he]
  | finish c s e failed busy =>
    by_cases he : d = e
    · subst he
      cases st <;>
        simp_all [Standing.Accords, Standing.next, Standing.finish, Stage.leaving]
    · have hp := port_raise_of_ne (c := c) failed (hw.ne he)
      simp_all [Standing.next, Ne.symm he]
  | serve c s ms made =>
    cases st <;>
      simp_all [Standing.Accords, Standing.next, Standing.serve, Port.served, Port.pending]
  | other c s script accesses =>
    have same : Chip.port { c with script, accesses } (k d).id = c.port (k d).id := rfl
    simpa [same] using hd

theorem accords_step (hw : Wired k s.chip) (hs : Step k s i t) (ha : s.Accords k h) :
    t.Accords k (h ++ i.toList) := by
  intro d
  rw [standing_append]
  exact (ha d).step hw hs

/-- The reports that are due are those of the standings. -/
theorem due_of_accords (hw : Wired k s.chip) (ha : s.Accords k h) (d : Direction) :
    s.chip.due d = (h.standing d).reports.map (⟨d, ·⟩) := by
  have hd := ha d
  unfold due
  rw [hw.claimed d]
  cases hst : h.standing d <;> simp_all [Standing.Accords, Standing.reports, Port.pending]

/-- The service routine reports exactly what is due to a direction. -/
theorem marks_of_served {ms : List Mark} (hw : Wired k s.chip) (ha : s.Accords k h)
    (hs : Step k s (some (.served ms)) t) (d : Direction) :
    ms.filter (·.dir = d) = (h.standing d).reports.map (⟨d, ·⟩) := by
  cases hs with
  | serve c stage ms made =>
    rw [reports_service, List.append_cancel_left_eq] at made
    rw [← made, due_of_accords hw ha, due_of_accords hw ha]
    cases d <;> simp [List.filter_eq_self.2, List.filter_eq_nil_iff.2]

end Steps

section Runs
variable {s t : Engines} {h : History}

theorem Runs.accords (hr : Runs k s h t) (hw : Wired k s.chip) (ha : s.Accords k []) :
    Wired k t.chip ∧ t.Accords k h := by
  induction hr with
  | refl => exact ⟨hw, ha⟩
  | step _ hs ih => exact ⟨wired_step hs ih.1, accords_step ih.1 hs ih.2⟩

/-- What is seen in the middle of a run is a step of it. -/
theorem Runs.split {pre post : History} {i : Incident} (hr : Runs k s h t)
    (hh : h = pre ++ i :: post) : ∃ u v, Runs k s pre u ∧ Step k u (some i) v := by
  induction hr generalizing post with
  | refl => simp at hh
  | @step h u v j hr hs ih =>
    cases j with
    | none => exact ih (by simpa using hh)
    | some j =>
      rcases List.eq_nil_or_concat post with rfl | ⟨post, l, rfl⟩
      · obtain ⟨rfl, hj⟩ := List.append_inj' hh rfl
        cases hj
        exact ⟨u, v, hr, hs⟩
      · have hh : h ++ [j] = (pre ++ i :: post) ++ [l] := by simpa using hh
        exact ih (List.append_inj' hh rfl).1

end Runs

section Histories
variable {h a b since : History} {i : Incident} {failed : Bool}

/-- A transfer of direction `d` was started, and neither ended nor was given up since. -/
def History.Underway (h : History) (d : Direction) : Prop :=
  ∃ a b, h = a ++ .started d :: b ∧ (∀ failed, .finished d failed ∉ b) ∧ .aborting d ∉ b

/-- A transfer of direction `d` was started and ended, was not given up, and the service routine
has not run since. `failed` is how it ended, and `since` what happened after that. -/
def History.Ended (h : History) (d : Direction) (failed : Bool) (since : History) : Prop :=
  ∃ a b, h = a ++ .started d :: b ++ .finished d failed :: since ∧
    (∀ failed, .finished d failed ∉ b) ∧ .aborting d ∉ b ++ since ∧ ∀ ms, .served ms ∉ since

theorem History.Underway.concat (hu : h.Underway d) (hf : ∀ failed, i ≠ .finished d failed)
    (ha : i ≠ .aborting d) : History.Underway (h ++ [i]) d := by
  obtain ⟨a, b, rfl, hb, hl⟩ := hu
  refine ⟨a, b ++ [i], by simp, ?_, ?_⟩
  · intro failed
    simp [hb failed, Ne.symm (hf failed)]
  · simp [hl, Ne.symm ha]

theorem History.Underway.finish (hu : h.Underway d) (failed : Bool) :
    History.Ended (h ++ [.finished d failed]) d failed [] := by
  obtain ⟨a, b, rfl, hb, hl⟩ := hu
  exact ⟨a, b, by simp, hb, by simpa using hl, by simp⟩

theorem History.Ended.concat (he : h.Ended d failed since) (hs : ∀ ms, i ≠ .served ms)
    (ha : i ≠ .aborting d) : History.Ended (h ++ [i]) d failed (since ++ [i]) := by
  obtain ⟨a, b, rfl, hb, hl, hn⟩ := he
  refine ⟨a, b, by simp, hb, ?_, ?_⟩
  · simp_all [Ne.symm ha]
  · intro ms
    simp [hn ms, Ne.symm (hs ms)]

/-- What happened for a transfer to stand as it does. -/
def Standing.Explained (d : Direction) (h : History) : Standing → Prop
  | running => h.Underway d
  | ended failed => ∃ since, h.Ended d failed since
  | overtaking => h.Underway d ∧ ∃ failed since, h.Ended d failed since
  | idle | leaving => True

theorem Standing.Explained.concat {s : Standing} (he : s.Explained d h)
    (hf : ∀ failed, i ≠ .finished d failed) (ha : i ≠ .aborting d) (hs : ∀ ms, i ≠ .served ms) :
    s.Explained d (h ++ [i]) := by
  cases s with
  | running => exact History.Underway.concat he hf ha
  | ended failed =>
    obtain ⟨since, ended⟩ := he
    exact ⟨_, ended.concat hs ha⟩
  | overtaking =>
    obtain ⟨underway, failed, since, ended⟩ := he
    exact ⟨underway.concat hf ha, failed, _, ended.concat hs ha⟩
  | idle | leaving => trivial

theorem standing_explained (d : Direction) (h : History) :
    (h.standing d).Explained d h := by
  induction h using List.reverseRecOn with
  | nil => trivial
  | append_singleton h i ih =>
    rw [standing_concat]
    generalize History.standing h d = s at ih
    cases i with
    | started e =>
      by_cases he : e = d
      · subst he
        have fresh : History.Underway (h ++ [.started e]) e := ⟨h, [], rfl, by simp, by simp⟩
        have kept := ih.concat (i := .started e) (by simp) (by simp) (by simp)
        rw [Standing.next, if_pos rfl]
        cases s with
        | ended failed => exact ⟨fresh, failed, kept⟩
        | overtaking => exact ⟨fresh, kept.2⟩
        | _ => exact fresh
      · rw [Standing.next, if_neg he]
        exact ih.concat (by simp) (by simp) (by simp)
    | finished e failed =>
      by_cases he : e = d
      · subst he
        rw [Standing.next, if_pos rfl]
        cases s with
        | running => exact ⟨[], History.Underway.finish ih failed⟩
        | overtaking => exact ⟨[], History.Underway.finish ih.1 failed⟩
        | ended failed =>
          obtain ⟨since, ended⟩ := ih
          exact ⟨_, ended.concat (by simp) (by simp)⟩
        | idle | leaving => trivial
      · rw [Standing.next, if_neg he]
        exact ih.concat (by simp [he]) (by simp) (by simp)
    | aborting e =>
      by_cases he : e = d
      · simp [Standing.next, he, Standing.Explained]
      · rw [Standing.next, if_neg he]
        exact ih.concat (by simp) (by simp [he]) (by simp)
    | aborted e =>
      by_cases he : e = d
      · rw [Standing.next, if_pos he]
        cases s with
        | leaving => trivial
        | _ => exact ih.concat (by simp) (by simp) (by simp)
      · rw [Standing.next, if_neg he]
        exact ih.concat (by simp) (by simp) (by simp)
    | served ms =>
      cases s with
      | running => exact History.Underway.concat ih (by simp) (by simp)
      | overtaking => exact History.Underway.concat ih.1 (by simp) (by simp)
      | _ => trivial

end Histories

section Standings
variable {h a b since : History} {i : Incident} {failed : Bool}

namespace Standing
variable {s : Standing}

/-- There is no transfer to report. -/
def AtRest (s : Standing) : Prop := s = idle ∨ s = leaving

theorem next_ne_leaving (hs : s ≠ leaving) (hi : i ≠ .aborting d) : s.next d i ≠ leaving := by
  cases i with
  | started e | finished e failed | aborting e | aborted e =>
    by_cases he : e = d <;> cases s <;> simp_all [next, start, finish, leave]
  | served ms => cases s <;> simp_all [next, serve]

theorem next_atRest (hs : s.AtRest) (hi : i ≠ .started d) : (s.next d i).AtRest := by
  cases i with
  | started e | finished e failed | aborting e | aborted e =>
    by_cases he : e = d <;> rcases hs with rfl | rfl <;> simp_all [next, finish, leave, AtRest]
  | served ms => rcases hs with rfl | rfl <;> simp [next, serve, AtRest]

theorem reports_next (hs : s.reports ≠ []) (ha : i ≠ .aborting d) (hn : ∀ ms, i ≠ .served ms) :
    (s.next d i).reports ≠ [] := by
  cases i with
  | started e | finished e failed | aborting e | aborted e =>
    by_cases he : e = d <;> cases s <;> simp_all [next, start, finish, leave, reports]
  | served ms => exact absurd rfl (hn ms)

theorem next_ended (hs : i ≠ .started d) (ha : i ≠ .aborting d) (hn : ∀ ms, i ≠ .served ms) :
    (ended failed).next d i = ended failed := by
  cases i <;> simp_all [next, finish, leave]

/-- The number of reports a transfer may still lead to. -/
def weight : Standing → Nat
  | idle | leaving => 0
  | running | ended _ => 1
  | overtaking => 2

theorem weight_next (s : Standing) (hn : ∀ ms, i ≠ .served ms) :
    (s.next d i).weight ≤ s.weight + [i].count (.started d) := by
  cases i with
  | started e | finished e failed | aborting e | aborted e =>
    by_cases he : e = d <;> cases s <;> simp_all [next, start, finish, leave, weight]
  | served ms => exact absurd rfl (hn ms)

theorem weight_serve (s : Standing) : s.serve.weight + s.reports.length = s.weight := by
  cases s <;> rfl

end Standing

/-- A transfer that was started is not being given up until that begins. -/
theorem standing_ne_leaving (a : History) (hb : .aborting d ∉ b) :
    History.standing (a ++ .started d :: b) d ≠ .leaving := by
  rw [standing_append, List.foldl_cons]
  refine List.foldlRecOn (motive := fun s => s ≠ Standing.leaving) b _ ?_ ?_
  · cases History.standing a d <;> simp [Standing.next, Standing.start]
  · intro s hs i hi
    exact Standing.next_ne_leaving hs (ne_of_mem_of_not_mem hi hb)

/-- Once a transfer is being given up, nothing is due until the next start. -/
theorem standing_atRest (a : History) (hb : .started d ∉ b) :
    (History.standing (a ++ .aborting d :: b) d).AtRest := by
  rw [standing_append, List.foldl_cons]
  refine List.foldlRecOn (motive := Standing.AtRest) b _ ?_ ?_
  · simp [Standing.next, Standing.AtRest]
  · intro s hs i hi
    exact Standing.next_atRest hs (ne_of_mem_of_not_mem hi hb)

/-- What ended stays due until it is reported or given up. -/
theorem reports_standing (hs : (h.standing d).reports ≠ []) (ha : .aborting d ∉ since)
    (hn : ∀ ms, .served ms ∉ since) : (History.standing (h ++ since) d).reports ≠ [] := by
  rw [standing_append]
  refine List.foldlRecOn (motive := fun s => Standing.reports s ≠ []) since _ hs ?_
  intro s hs i hi
  refine Standing.reports_next hs (ne_of_mem_of_not_mem hi ha) ?_
  intro ms
  exact ne_of_mem_of_not_mem hi (hn ms)

/-- How a transfer ended is remembered until it is reported, given up or overtaken. -/
theorem standing_ended (hs : h.standing d = .ended failed) (ha : .aborting d ∉ since)
    (hn : ∀ ms, .served ms ∉ since) (hr : .started d ∉ since) :
    History.standing (h ++ since) d = .ended failed := by
  rw [standing_append]
  refine List.foldlRecOn (motive := fun s => s = Standing.ended failed) since _ hs ?_
  rintro s rfl i hi
  refine Standing.next_ended (ne_of_mem_of_not_mem hi hr) (ne_of_mem_of_not_mem hi ha) ?_
  intro ms
  exact ne_of_mem_of_not_mem hi (hn ms)

end Standings

section Counts
variable {s t : Engines} {h : History}

def Incident.marks : Incident → List Mark
  | served ms => ms
  | _ => []

/-- The number of starts of a direction. -/
def History.starts (h : History) (d : Direction) : Nat := h.count (.started d)

/-- The number of reports to a direction. -/
def History.marks (h : History) (d : Direction) : Nat :=
  ((h.flatMap Incident.marks).filter (·.dir = d)).length

/-- What was reported, and what may still be without a further start, is no more than what was
started. -/
theorem Runs.marks_le (hr : Runs k s h t) (hw : Wired k s.chip) (ha : s.Accords k [])
    (d : Direction) : h.marks d + (h.standing d).weight ≤ h.starts d := by
  induction hr with
  | refl => simp [History.marks, History.standing, Standing.weight]
  | @step h u v i hr hs ih =>
    obtain ⟨hu, accords⟩ := hr.accords hw ha
    cases i with
    | none => simpa using ih
    | some i =>
      have marks : History.marks (h ++ [i]) d = h.marks d + (i.marks.filter (·.dir = d)).length := by
        simp [History.marks]
      have starts : History.starts (h ++ [i]) d = h.starts d + [i].count (.started d) := by
        simp [History.starts]
      have lighter : (∀ ms, i ≠ .served ms) →
          ((h.standing d).next d i).weight ≤ (h.standing d).weight + [i].count (.started d) :=
        Standing.weight_next (h.standing d)
      rw [Option.toList_some, marks, starts, standing_concat]
      cases i with
      | served ms =>
        have served := marks_of_served hu accords hs d
        have weight := Standing.weight_serve (h.standing d)
        simp only [Incident.marks, served, List.length_map, Standing.next]
        omega
      | started e | finished e failed | aborting e | aborted e =>
        have lighter := lighter (by simp)
        simp only [Incident.marks, List.filter_nil, List.length_nil]
        omega

end Counts

section Deliveries
variable {s t : Engines} {h : History}

/-- Both channels are claimed, idle and without an interrupt, and theirs go to the line. -/
structure Settled (k : Direction → Channel) (c : Chip) : Prop extends Wired k c where
  quiet : ∀ d, (c.port (k d).id).busy = false ∧ (c.port (k d).id).raised = false ∧
    (c.port (k d).id).routed = true

theorem Settled.accords (hc : Settled k c) : Engines.Accords k [] ⟨c, .free⟩ := by
  intro d
  exact ⟨by simp [Stage.leaving], hc.quiet d⟩

/-- What the reports to a direction owe to its transfers. -/
structure History.Delivers (h : History) (d : Direction) : Prop where
  /-- No start leads to more than one report. -/
  bounded : h.marks d ≤ h.starts d
  /-- What is reported has ended since the service routine last ran, and was not given up. -/
  owed : ∀ {pre post : History} {ms m}, h = pre ++ .served ms :: post → m ∈ ms → m.dir = d →
    ∃ failed since, pre.Ended d failed since
  /-- What ended and was not given up is reported when the service routine next runs, once, and as
  it ended unless the direction was started again in between. -/
  reported : ∀ {pre post : History} {ms failed since}, h = pre ++ .served ms :: post →
    pre.Ended d failed since →
    ∃ r, ms.filter (·.dir = d) = [⟨d, r⟩] ∧ (.started d ∉ since → (r = .error ↔ failed))
  /-- From the moment it is being given up nothing is reported until the next start. -/
  silent : ∀ {a b post : History} {ms}, h = a ++ .aborting d :: b ++ .served ms :: post →
    .started d ∉ b → ∀ m ∈ ms, m.dir ≠ d

/-- A busy channel whose transfer is not being given up has one underway. -/
theorem standing_of_busy {stage : Stage} {p : Port} {standing : Standing}
    (ha : standing.Accords d stage p) (hb : p.busy = true) (hl : standing ≠ .leaving) :
    standing.finish failed = .ended failed := by
  cases standing <;> simp_all [Standing.Accords, Standing.finish]

/-- A transfer that ends is remembered as it ended. -/
theorem Runs.standing_finished {a b since : History} {failed : Bool} (hr : Runs k s h t)
    (hw : Wired k s.chip) (ha : s.Accords k [])
    (hh : h = a ++ .started d :: b ++ .finished d failed :: since) (hb : .aborting d ∉ b) :
    History.standing (a ++ .started d :: b ++ [.finished d failed]) d = .ended failed := by
  obtain ⟨u, v, before, hs⟩ := hr.split hh
  have accords := (before.accords hw ha).2 d
  have underway := standing_ne_leaving a hb
  rw [standing_concat, Standing.next, if_pos rfl]
  cases hs with
  | finish c stage e failed busy => exact standing_of_busy accords busy underway

theorem Runs.delivers (hr : Runs k s h t) (hw : Wired k s.chip) (ha : s.Accords k [])
    (d : Direction) : h.Delivers d := by
  have made : ∀ {pre post : History} {ms}, h = pre ++ .served ms :: post →
      ms.filter (·.dir = d) = (pre.standing d).reports.map (⟨d, ·⟩) := by
    intro pre post ms hh
    obtain ⟨u, v, before, hs⟩ := hr.split hh
    obtain ⟨wired, accords⟩ := before.accords hw ha
    exact marks_of_served wired accords hs d
  constructor
  · have bound := hr.marks_le hw ha d
    omega
  · intro pre post ms m hh hm hd
    have mem : m ∈ ms.filter (·.dir = d) := by simp [hm, hd]
    have explained := standing_explained d pre
    rw [made hh] at mem
    cases hst : pre.standing d with
    | ended failed =>
      rw [hst] at explained
      exact ⟨failed, explained⟩
    | overtaking =>
      rw [hst] at explained
      exact explained.2
    | idle | running | leaving => simp [hst, Standing.reports] at mem
  · intro pre post ms failed since hh ended
    obtain ⟨a, b, rfl, -, hl, hn⟩ := ended
    rw [List.mem_append, not_or] at hl
    have cut : h = a ++ .started d :: b ++ .finished d failed :: (since ++ .served ms :: post) := by
      simpa using hh
    have finished := hr.standing_finished hw ha cut hl.1
    have split : a ++ .started d :: b ++ .finished d failed :: since =
        (a ++ .started d :: b ++ [.finished d failed]) ++ since := by simp
    have due := reports_standing (by rw [finished]; simp [Standing.reports]) hl.2 hn
    rw [made hh, split]
    by_cases again : .started d ∈ since
    · obtain ⟨r, hr⟩ : ∃ r, (History.standing
          ((a ++ .started d :: b ++ [.finished d failed]) ++ since) d).reports = [r] := by
        revert due
        cases History.standing _ d <;> simp [Standing.reports]
      exact ⟨r, by rw [hr]; rfl, fun fresh => absurd again fresh⟩
    · rw [standing_ended finished hl.2 hn again]
      refine ⟨if failed then .error else .done, rfl, ?_⟩
      cases failed <;> simp
  · intro a b post ms hh hb m hm hd
    have mem : m ∈ ms.filter (·.dir = d) := by simp [hm, hd]
    rw [made hh] at mem
    rcases standing_atRest a hb with rest | rest <;> simp [rest, Standing.reports] at mem

/-- An access of the call that gives up direction `d`'s transfer. -/
def GivesUp (d : Direction) (s t : Engines) : Prop :=
  t.stage ≠ s.stage ∧ (s.stage.leaving = some d ∨ t.stage.leaving = some d)

/-- Giving up one transfer changes nothing about the other direction's channel, and makes no
report. -/
theorem Step.apart {i : Option Incident} (hs : Step k s i t) (hw : Wired k s.chip)
    (hg : GivesUp d s t) (he : e ≠ d) :
    t.chip.port (k e).id = s.chip.port (k e).id ∧ t.chip.reports = s.chip.reports := by
  obtain ⟨moved, leaving⟩ := hg
  have hne := hw.ne he
  cases hs with
  | mute c d' =>
    obtain rfl : d' = d := by simpa [Stage.leaving] using leaving
    exact ⟨port_mute_of_ne hne, rfl⟩
  | cease c d' spurious =>
    obtain rfl : d' = d := by simpa [Stage.leaving] using leaving
    refine ⟨port_cease_of_ne spurious hne, ?_⟩
    cases spurious <;> rfl
  | clear c d' =>
    obtain rfl : d' = d := by simpa [Stage.leaving] using leaving
    exact ⟨port_acknowledge_of_ne hne, rfl⟩
  | unmute c d' =>
    obtain rfl : d' = d := by simpa [Stage.leaving] using leaving
    exact ⟨port_unmute_of_ne hne, rfl⟩
  | start | finish | serve | other => exact absurd rfl moved

/-- Whatever comes between the calls and within those that give up a transfer, completions are
delivered to their own direction, each of them once, and a transfer that is given up concerns its
own direction alone. -/
theorem completions_delivered (hc : Settled k c) (hr : Runs k ⟨c, .free⟩ h t) :
    (∀ d, h.Delivers d) ∧
      ∀ {i : Option Incident} {u : Engines} {d e : Direction}, Step k t i u → GivesUp d t u →
        e ≠ d → u.chip.port (k e).id = t.chip.port (k e).id ∧ u.chip.reports = t.chip.reports := by
  constructor
  · exact hr.delivers hc.toWired hc.accords
  · intro i u d e hs
    exact hs.apart (hr.accords hc.toWired hc.accords).1

end Deliveries

section Calls
variable {s t u : Engines} {h g : History}

/-- Claiming two idle channels settles them. -/
theorem settled_route (hd : (k .tx).id ≠ (k .rx).id)
    (idle : ∀ d, (c.port (k d).id).busy = false) :
    Settled k ((c.route (k .tx).id .tx).route (k .rx).id .rx) where
  claimed d := by
    cases d with
    | tx => rw [claimed_route_of_ne (by decide), claimed_route_self]
    | rx => rw [claimed_route_self]
  apart := hd
  quiet d := by
    cases d with
    | tx =>
      rw [port_route_of_ne hd, port_route_self]
      exact ⟨idle .tx, rfl, rfl⟩
    | rx =>
      rw [port_route_self, port_route_of_ne hd.symm]
      exact ⟨idle .rx, rfl, rfl⟩

theorem Runs.trans (hr : Runs k s h t) (ht : Runs k t g u) : Runs k s (h ++ g) u := by
  induction ht with
  | refl => simpa using hr
  | step _ hs ih =>
    rw [← List.append_assoc]
    exact ih.step hs

theorem Step.runs {i : Option Incident} (hs : Step k s i t) : Runs k s i.toList t :=
  Runs.refl.step hs

/-- What is due on the line may be served at once. -/
theorem runs_serveDue (k : Direction → Channel) (c : Chip) (stage : Stage) :
    ∃ h, Runs k ⟨c, stage⟩ h ⟨c.serveDue, stage⟩ := by
  unfold serveDue
  split
  · exact ⟨[], .refl⟩
  · have noted : Step k ⟨c, stage⟩ none ⟨c.log .interrupt, stage⟩ := .other _ _ c.script _
    exact ⟨_, noted.runs.trans (Step.serve _ _ _ (reports_service _)).runs⟩

/-- A completion that interrupts at once is one of the interleavings. -/
theorem runs_complete (stage : Stage) (failed : Bool) (busy : (c.port (k d).id).busy = true) :
    ∃ h, Runs k ⟨c, stage⟩ (.finished d failed :: h) ⟨c.complete (k d).id failed, stage⟩ := by
  obtain ⟨h, served⟩ := runs_serveDue k (c.raise (k d).id failed) stage
  exact ⟨h, (Step.finish c stage d failed busy).runs.trans served⟩

/-- So is a start that meets its fate at once. -/
theorem runs_start (k : Direction → Channel) (c : Chip) (d : Direction) (t : Transfer) :
    ∃ h, Runs k ⟨c, .free⟩ (.started d :: h) ⟨(c.start (k d) t).2, .free⟩ := by
  have started := (Step.start (k := k) c d t).runs
  have busy : (((c.arm (k d) t).move (k d) t).2.port (k d).id).busy = true := by simp
  have whole : (c.start (k d) t).2 = ((c.arm (k d) t).move (k d) t).2.meetFate (k d) := rfl
  generalize ((c.arm (k d) t).move (k d) t).2 = moved at started busy whole
  have asks : Step k ⟨moved, .free⟩ none ⟨moved.asked (k d).endpoint.dir, .free⟩ :=
    .other _ _ _ moved.accesses
  have begun := started.trans asks.runs
  rw [whole, meetFate_eq]
  cases (moved.script.start (k d).endpoint.dir).1 with
  | done =>
    obtain ⟨h, ended⟩ := runs_complete (c := moved.asked (k d).endpoint.dir) .free false busy
    exact ⟨_, begun.trans ended⟩
  | error =>
    obtain ⟨h, ended⟩ := runs_complete (c := moved.asked (k d).endpoint.dir) .free true busy
    exact ⟨_, begun.trans ended⟩
  | never => exact ⟨_, begun⟩

/-- So is giving up a transfer without anything in between but what the stop raises. -/
theorem runs_abort (k : Direction → Channel) (c : Chip) (d : Direction) :
    ∃ h, Runs k ⟨c, .free⟩ (.aborting d :: h) ⟨c.abort (k d), .free⟩ := by
  have muted := (Step.mute (k := k) c d).runs
  have rest : ∀ c', Runs k ⟨c', .ceased d⟩ [.aborted d]
      ⟨(c'.acknowledge (mask (k d).id)).unmute (k d).id, .free⟩ := by
    intro c'
    exact (Step.clear c' d).runs.trans (Step.unmute _ d).runs
  rw [abort_eq, halt_eq]
  split
  · obtain ⟨h, served⟩ := runs_serveDue k ((c.mute (k d).id).cease (k d).id true) (.ceased d)
    have stopped := muted.trans ((Step.cease _ d true).runs.trans served)
    exact ⟨_, stopped.trans (rest _)⟩
  · exact ⟨_, (muted.trans (Step.cease _ d false).runs).trans (rest _)⟩

end Calls

section Runs

/-- Channel 0 sends and channel 1 receives. -/
def twoChannels (d : Direction) : Channel :=
  match d with
  | .tx => ⟨⟨0, by decide⟩, ⟨0x50200010, 0, .tx⟩⟩
  | .rx => ⟨⟨1, by decide⟩, ⟨0x50300020, 12, .rx⟩⟩

/-- Both channels just claimed. -/
def justClaimed : Chip := (Chip.route { script := {} } (twoChannels .tx).id .tx).route (twoChannels .rx).id .rx

theorem settled_justClaimed : Settled twoChannels justClaimed := by
  refine settled_route (k := twoChannels) (by decide) ?_
  intro d
  cases d <;> rfl

/-- A receive ends while a send is being given up, which raises an interrupt of its own; the next
send fails. -/
theorem completions_delivered_spurious :
    Settled twoChannels justClaimed ∧
      ∃ t, Runs twoChannels ⟨justClaimed, .free⟩
          [.started .tx, .started .rx, .aborting .tx, .finished .rx false,
            .served [⟨.rx, .done⟩], .aborted .tx, .started .tx, .finished .tx true,
            .served [⟨.tx, .error⟩]] t ∧
        ∀ d, History.Delivers
          [.started .tx, .started .rx, .aborting .tx, .finished .rx false,
            .served [⟨.rx, .done⟩], .aborted .tx, .started .tx, .finished .tx true,
            .served [⟨.tx, .error⟩]] d := by
  have sent := (Step.start (k := twoChannels) justClaimed .tx (.fromMemory [7])).runs
  have armed := sent.step (.start _ .rx (.toMemory 2))
  have stopped := (armed.step (.mute _ .tx)).step (.cease _ .tx true)
  have received := (stopped.step (.finish _ _ .rx false rfl)).step (.serve _ _ [⟨.rx, .done⟩] rfl)
  have left := (received.step (.clear _ .tx)).step (.unmute _ .tx)
  have again := left.step (.start _ .tx (.fromMemory [9]))
  have failed := (again.step (.finish _ _ .tx true rfl)).step (.serve _ _ [⟨.tx, .error⟩] rfl)
  exact ⟨settled_justClaimed, _, failed, (completions_delivered settled_justClaimed failed).1⟩

/-- A send that failed is reported as done if the next one is started before the service routine
runs: the start clears the error, and the interrupt stays. -/
theorem restart_hides_failure :
    Settled twoChannels justClaimed ∧
      History.Ended [.started .tx, .finished .tx true, .started .tx] .tx true [.started .tx] ∧
      ∃ t, Runs twoChannels ⟨justClaimed, .free⟩
        ([.started .tx, .finished .tx true, .started .tx] ++ [.served [⟨.tx, .done⟩]]) t := by
  have sent := (Step.start (k := twoChannels) justClaimed .tx (.fromMemory [7])).runs
  have failed := sent.step (.finish _ _ .tx true rfl)
  have again := failed.step (.start _ .tx (.fromMemory [9]))
  have served := again.step (.serve _ _ [⟨.tx, .done⟩] rfl)
  exact ⟨settled_justClaimed, ⟨[], [], by simp⟩, _, served⟩

end Runs

end Joybus.Chip
