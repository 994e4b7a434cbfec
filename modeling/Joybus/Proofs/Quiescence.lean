import Joybus.Proofs.Closings
import Joybus.Proofs.Interruptions

/-! A transfer that fails on the board leaves its direction quiescent, and the other one alone,
wherever interruptions come. -/
namespace Joybus

open Chip Transceiver

variable {k : Direction → Channel} {p : Direction → Program} {d e : Direction} {l : Link}

section Silence
variable {s t : Engines} {i : Option Incident} {h : History} {st : Standing}

theorem Chip.reports_arm {c : Chip} (k : Channel) (t : Transfer) :
    (c.arm k t).reports = c.reports := by
  simp only [arm, setChannel, log]

theorem Chip.reports_move {c : Chip} (k : Channel) (t : Transfer) :
    (c.move k t).2.reports = c.reports := by
  unfold move
  split <;> rfl

/-- One step reports nothing on a direction without a transfer. -/
theorem Chip.Step.silent (hs : Chip.Step k s i t) (hw : Wired k s.chip)
    (ha : st.Accords d s.stage (s.chip.port (k d).id)) (hst : st.AtRest) (l : Link) :
    (l.markAll t.chip.reports).status d = (l.markAll s.chip.reports).status d := by
  cases hs with
  | start c e t =>
    rw [reports_move, reports_arm]
  | cease c e spurious => cases spurious <;> rfl
  | serve c stage ms made =>
    have pending : (c.port (k d).id).pending = false := by
      rcases hst with rfl | rfl <;> simp_all [Standing.Accords, Port.pending]
    have served := congrArg Outlook.status (outlook_service hw l d)
    simpa [outlook, Outlook.suffer, pending] using served
  | mute | clear | unmute | finish | other => rfl

/-- Nothing is reported on a direction without a transfer until the next one is started. -/
theorem Chip.Runs.silent (hr : Chip.Runs k s h t) (hw : Wired k s.chip)
    (ha : st.Accords d s.stage (s.chip.port (k d).id)) (hst : st.AtRest) (hn : .started d ∉ h)
    (l : Link) :
    (l.markAll t.chip.reports).status d = (l.markAll s.chip.reports).status d := by
  -- The direction stays without a transfer, which is what keeps the next step silent.
  suffices stays : Wired k t.chip ∧
      (∃ st : Standing, st.AtRest ∧ st.Accords d t.stage (t.chip.port (k d).id)) ∧
      (l.markAll t.chip.reports).status d = (l.markAll s.chip.reports).status d from stays.2.2
  induction hr with
  | refl => exact ⟨hw, ⟨st, hst, ha⟩, rfl⟩
  | @step h u v i _ hs ih =>
    rw [List.mem_append, not_or] at hn
    obtain ⟨wired, ⟨st, rest, accords⟩, silent⟩ := ih hn.1
    refine ⟨wired_step hs wired, ⟨_, ?_, accords.step wired hs⟩, ?_⟩
    · cases i with
      | none => exact rest
      | some i => exact Standing.next_atRest rest fun hi => hn.2 (by simp [hi])
    · rw [hs.silent wired accords rest, silent]

end Silence

namespace Exposed

/-- A direction's channel and cell. -/
def sight (k : Direction → Channel) (w : World Exposed) (d : Direction) : Outlook :=
  ⟨w.hardware.board.chip.port (k d).id, w.link.status d⟩

/-- The board is as it is fitted, and every report has been handed over. -/
structure Ready (k : Direction → Channel) (p : Direction → Program) (x : Exposed) : Prop where
  fitted : x.board.Fitted k p
  handed : x.board.chip.reports = []

theorem Ready.outlook {w : World Exposed} (hw : w.hardware.Ready k p) (d : Direction) :
    w.hardware.board.chip.outlook k w.link d = sight k w d := by
  rw [Chip.outlook, hw.handed]
  rfl

theorem ready_answer {α : Type} {x : Exposed} (hx : x.board.Fitted k p) (a : α) :
    (x.answer a).state.Ready k p :=
  ⟨hx.answer a x.board.chip rfl, rfl⟩

theorem ready_around {α : Type} {x : Exposed} {use : Board → Response Board α}
    (hx : x.board.Fitted k p)
    (hu : ∀ {b : Board}, b.Fitted k p → (use b).state.Fitted k p) :
    (x.around use).state.Ready k p := by
  have before := passage_elapse (fun _ => True) hx
  have used := hu before.fitted
  have after := passage_elapse (x := { x.elapse with board := (use x.elapse.board).state })
    (fun _ => True) used
  exact ready_answer after.fitted _

/-- The board stays ready, whatever it is used for. -/
theorem maintains_ready : hardware.Maintains (Ready k p) where
  respond c x hx := by
    cases c with
    | abort d => exact ready_answer (passage_abort hx.fitted d).fitted ()
    | reset d => exact ready_answer (passage_reset hx.fitted d).fitted ()
    | _ => exact ready_around hx.fitted fun hb => hb.respond _
  startDelay us x hx := ⟨hx.fitted.congr _ rfl, hx.handed⟩
  pollDelay x hx := ready_around hx.fitted fun hb => hb.pollDelay
  interrupt m x hx := ready_around hx.fitted fun hb => hb.interrupt m

section Retreat
variable {w : World Exposed}

/-- The link once a direction's cell is disarmed and the direction noted as idle. -/
def cleared (l : Link) : Direction → Link
  | .tx => { l with cells := l.cells.modify .tx .disarm, tx := .idle }
  | .rx => { l with cells := l.cells.modify .rx .disarm, rx := .idle }

theorem status_cleared_self (l : Link) (d : Direction) :
    (cleared l d).status d = .notStarted := by
  cases d <;> rfl

theorem status_cleared_of_ne (l : Link) (h : e ≠ d) : (cleared l d).status e = l.status e := by
  cases d <;> cases e <;> first | rfl | exact absurd rfl h

/-- The world once a direction's transfer is given up. -/
def givenUp (w : World Exposed) (d : Direction) : World Exposed where
  link := cleared (w.link.markAll (w.hardware.abort d).board.chip.reports) d
  hardware := ((w.hardware.abort d).answer ()).state

/-- A failed transfer is given up, and then its program is brought back. -/
theorem performAll_retreat (w : World Exposed) (d : Direction) :
    (hardware.performAll w (Action.retreat d)).world =
      (givenUp w d).absorb (((givenUp w d).hardware.reset d).answer ()) := by
  cases d <;> rfl

/-- The channel is at rest, its interrupt let through, and its cell unused until the next start. -/
structure Quiescent (k : Direction → Channel) (d : Direction) (w : World Exposed) : Prop where
  idle : (sight k w d).port.busy = false
  clear : (sight k w d).port.raised = false
  routed : (sight k w d).port.routed = true
  unused : (sight k w d).status = .notStarted
  /-- Whatever happens to the channels but a start of this one, nothing is reported on it. -/
  stays : ∀ {h : History} {t : Engines}, Chip.Runs k ⟨w.hardware.board.chip, .free⟩ h t →
    .started d ∉ h → (w.link.markAll t.chip.reports).status d = .notStarted

/-- From `w` to `w'` the program of direction `d` is brought back to its first instruction and used
for nothing else, and nothing but interruptions happens to the other direction. -/
structure Withdrawn (k : Direction → Channel) (p : Direction → Program) (d : Direction)
    (w w' : World Exposed) : Prop where
  restarted : w'.hardware.board.chip.machineLog (p d).machine =
    w.hardware.board.chip.machineLog (p d).machine ++ (p d).resetting
  apart : ∃ since, w'.hardware.past = w.hardware.past ++ since ∧
    sight k w' d.other = since.foldl (Outlook.suffer d.other) (sight k w d.other)

theorem quiescent_of_sight {error : Bool} (hw : w.hardware.Ready k p)
    (hs : sight k w d = ⟨⟨false, error, false, true⟩, .notStarted⟩) : Quiescent k d w where
  idle := by rw [hs]
  clear := by rw [hs]
  routed := by rw [hs]
  unused := by rw [hs]
  stays := by
    intro h t hr hn
    have accords : Standing.idle.Accords d .free (w.hardware.board.chip.port (k d).id) := by
      have port := congrArg Outlook.port hs
      simp only [sight] at port
      simp [Standing.Accords, Stage.leaving, port]
    have silent := hr.silent hw.fitted.wired accords (.inl rfl) hn w.link
    rw [hw.handed] at silent
    exact silent.trans (congrArg Outlook.status hs)

theorem ready_givenUp (hw : w.hardware.Ready k p) (d : Direction) :
    (givenUp w d).hardware.Ready k p :=
  ready_answer (passage_abort hw.fitted d).fitted ()

/-- What is seen after the cleanup, before the last reports are handed over. -/
theorem sight_retreat (w : World Exposed) (d e : Direction) :
    sight k (hardware.performAll w (Action.retreat d)).world e =
      ((givenUp w d).hardware.reset d).board.chip.outlook k (givenUp w d).link e := by
  rw [performAll_retreat]
  rfl

/-- The cleanup of a failed transfer leaves its direction quiescent. -/
theorem quiescent_retreat (hw : w.hardware.Ready k p) (d : Direction) :
    Quiescent k d (hardware.performAll w (Action.retreat d)).world := by
  obtain ⟨error, port⟩ := port_abort hw.fitted d
  have given := ready_givenUp hw d
  have seen : sight k (givenUp w d) d = ⟨⟨false, error, false, true⟩, .notStarted⟩ := by
    rw [← port, ← status_cleared_self (w.link.markAll (w.hardware.abort d).board.chip.reports) d]
    rfl
  have idle := congrArg (·.port.busy) seen
  have clear := congrArg (·.port.raised) seen
  apply quiescent_of_sight (maintains_ready.performAll hw (Action.retreat d))
  rw [sight_retreat, (passage_reset given.fitted d).at_rest trivial idle clear, given.outlook, seen]

/-- It brings the program back, and leaves the other direction alone. -/
theorem withdrawn_retreat (hw : w.hardware.Ready k p) (d : Direction) :
    Withdrawn k p d w (hardware.performAll w (Action.retreat d)).world := by
  have given := ready_givenUp hw d
  constructor
  · have reset := machineLog_reset (givenUp w d).hardware d
    rw [given.fitted.program] at reset
    have kept : (givenUp w d).hardware.board.chip.machineLog (p d).machine =
        w.hardware.board.chip.machineLog (p d).machine := machineLog_abort d
    rw [kept] at reset
    rw [performAll_retreat]
    exact reset
  · obtain ⟨first, past, spares⟩ := (passage_abort hw.fitted d).spares
    obtain ⟨second, past', spares'⟩ := (passage_reset given.fitted d).spares
    have before := spares w.link d.other d.other_ne
    have seen : sight k (givenUp w d) d.other =
        (w.hardware.abort d).board.chip.outlook k w.link d.other := by
      rw [Chip.outlook, ← status_cleared_of_ne _ d.other_ne]
      rfl
    refine ⟨first ++ second, ?_, ?_⟩
    · rw [performAll_retreat, ← List.append_assoc, ← past]
      exact past'
    · rw [sight_retreat, spares' _ _ trivial, given.outlook, seen, before, hw.outlook,
        List.foldl_append]

end Retreat

/-- With no moments to come, what is done on the exposed board is done on the board. -/
theorem drive_calm (b : Board) (config : LinkConfig) (ops : List Operation) (r : Request)
    (polls : Nat) :
    ((Session.start config b).run Board.hardware ops).2.drive Board.hardware r.call polls =
      (((Session.start config (⟨b, [], []⟩ : Exposed)).run hardware ops).2.drive hardware r.call
        polls).project board := by
  have start : (Session.start config b) = (Session.start config (⟨b, [], []⟩ : Exposed)).project
      board := rfl
  have calm := projects_calm.run (s := Session.start config (⟨b, [], []⟩ : Exposed)) rfl ops
  rw [start, projects_calm.run_eq rfl ops]
  exact (projects_calm.drive_eq calm (r.call _) polls).symm

/-- A transfer that fails leaves the board quiescent. From every state a run of any operations
reaches, wherever interruptions come, a send, an arming, a wait for an armed receive or a whole
receive that comes back with a timeout or a fault after its channel was started leaves the channel
at rest and its cell unused until the next start. The call came to a state `w` from where it gave
up the transfer and brought the program back, and nothing else; that left the other direction
alone. With no moments to come this is about the board itself. -/
theorem failure_leaves_quiescent (b : Board) (hb : Wired b.channel b.chip)
    (hr : b.chip.reports = []) (ahead : List Moment) (config : LinkConfig) (ops : List Operation)
    (r : Request) (d : Direction) (hd : r.side? = some d) (polls : Nat) :
    let s := ((Session.start config (⟨b, ahead, []⟩ : Exposed)).run hardware ops).2
    let o := s.drive hardware r.call polls
    (∀ reply left, s.config.mode = .dma → o.value = .finished reply left → reply.Failed →
      ((∃ e ∈ o.trace, e.Starts d) ∨ ∃ timeout, r = .finish timeout) →
      Quiescent b.channel d o.world ∧
      ∃ w before, Position.Reaches hardware (.running (r.call s.config)) s.world before
          (.running (Call.closing (Action.retreat d) reply)) w ∧
        o.trace = before ++ (hardware.performAll w (Action.retreat d)).trace ∧
        o.world = (hardware.performAll w (Action.retreat d)).world ∧
        Withdrawn b.channel b.program d w o.world) ∧
    (ahead = [] →
      ((Session.start config b).run Board.hardware ops).2.drive Board.hardware r.call polls =
        o.project board) := by
  intro s o
  constructor
  · intro reply left hm hv hf hs
    have fresh : Ready b.channel b.program ⟨b, ahead, []⟩ := ⟨⟨rfl, rfl, hb⟩, hr⟩
    have ready : s.world.hardware.Ready b.channel b.program :=
      maintains_ready.run (s := Session.start config ⟨b, ahead, []⟩) fresh ops
    obtain ⟨w, before, still, reached, trace, world⟩ :=
      Request.retreats maintains_ready ready hd hm hv hf hs
    refine ⟨?_, w, before, reached, trace, world, ?_⟩
    · rw [world]
      exact quiescent_retreat still d
    · rw [world]
      exact withdrawn_retreat still d
  · rintro rfl
    exact drive_calm b config ops r polls

/-- Setting up the board claims a channel for each direction. -/
theorem wired_setup (script : Bench.Script) (timing : TimingConfig) :
    Wired (Board.setup script timing).channel (Board.setup script timing).chip where
  claimed d := by cases d <;> rfl
  apart := show (0 : ChannelId) ≠ 1 by decide

/-- No receive ends by itself. -/
def neverReceives : Bench.Script where
  rx := { programCounter := 9, origin := 5, starts := { default := .never } }

/-- Nothing interrupts the arming of a receive and the wait for it. Then the transfer ends right
before it is given up, its stop raises another interrupt, and the service routine runs between any
two accesses. -/
def lateMoments : List Moment :=
  List.replicate 6 ⟨false, []⟩ ++
    [{ interruptions := [.finish .rx true] }, { interruptions := [.service] },
      { stray := true, interruptions := [.service] }, { interruptions := [.service] },
      { interruptions := [.service, .finish .tx false] }]

/-- A receive is overdue, and ends just as it is given up. -/
theorem failure_leaves_quiescent_late :
    let b := Board.setup neverReceives {}
    let s := ((Session.start {} (⟨b, lateMoments, []⟩ : Exposed)).run hardware
      [.request (.arm 2) 1]).2
    let o := s.drive hardware (Request.finish 10).call 1
    Wired b.channel b.chip ∧ b.chip.reports = [] ∧ s.config.mode = .dma ∧
      o.value = .finished (.received (.error .timedOut)) 1 ∧
      o.world.hardware.past = [.finish .rx true, .service, .service, .service, .service,
        .finish .tx false] ∧
      Quiescent b.channel .rx o.world ∧
      ∃ w, o.world = (hardware.performAll w (Action.retreat .rx)).world ∧
        Withdrawn b.channel b.program .rx w o.world := by
  intro b s o
  have value : o.value = .finished (.received (.error .timedOut)) 1 := by decide +kernel
  have past : o.world.hardware.past = [.finish .rx true, .service, .service, .service, .service,
      .finish .tx false] := by decide +kernel
  have failure := (failure_leaves_quiescent b (wired_setup neverReceives {}) rfl lateMoments {}
    [.request (.arm 2) 1] (.finish 10) .rx rfl 1).1
  obtain ⟨quiescent, w, -, -, -, world, withdrawn⟩ :=
    failure _ _ rfl value trivial (.inr ⟨10, rfl⟩)
  exact ⟨wired_setup neverReceives {}, rfl, rfl, value, past, quiescent, w, world, withdrawn⟩

end Exposed

end Joybus
