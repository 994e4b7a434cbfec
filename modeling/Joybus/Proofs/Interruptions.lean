import Joybus.Chip.Board
import Joybus.Proofs.Deliveries
import Joybus.Proofs.Driving
import Joybus.Proofs.Reports
import Joybus.Proofs.Routing

/-! The board with interruptions between any two accesses to its chip: transfers that end, and runs
of the service routine. -/
namespace Joybus.Chip

open Completion (Report Status)
open Transceiver (Link Mark)

variable {k : Direction → Channel} {c : Chip} {ch : ChannelId} {d e : Direction} {l : Link}

/-- What may come between two accesses to the chip. -/
inductive Interruption where
  /-- The hardware ends a direction's transfer, if one is under way. -/
  | finish (d : Direction) (failed : Bool)
  /-- The service routine runs. -/
  | service
deriving DecidableEq, Repr

def suffer (k : Direction → Channel) (c : Chip) : Interruption → Chip
  | .finish d failed => if (c.port (k d).id).busy then c.raise (k d).id failed else c
  | .service => c.service

/-- What there is to see of a direction: the registers of its channel and the status of its cell. -/
structure Outlook where
  port : Port
  status : Status
deriving DecidableEq, Repr

namespace Outlook

/-- What an interruption makes of direction `e`'s outlook. -/
def suffer (e : Direction) (o : Outlook) : Interruption → Outlook
  | .finish d failed =>
    if d = e ∧ o.port.busy then
      { o with port := { o.port with busy := false, error := failed, raised := true } }
    else o
  | .service =>
    { port := o.port.served
      status :=
        if o.port.pending then .ofReport (if o.port.error then .error else .done) else o.status }

variable {o : Outlook} {is : List Interruption}

theorem busy_suffer (hb : o.port.busy = false) (i : Interruption) :
    (o.suffer e i).port.busy = false := by
  cases i with
  | finish d failed => simp [suffer, hb]
  | service => exact hb

theorem busy_sufferAll (hb : o.port.busy = false) : (is.foldl (suffer e) o).port.busy = false :=
  List.foldlRecOn (motive := fun o : Outlook => o.port.busy = false) is _ hb
    fun _ hb i _ => busy_suffer hb i

/-- A channel at rest gives an interruption nothing to do. -/
theorem suffer_eq_self (hb : o.port.busy = false) (hr : o.port.raised = false) (i : Interruption) :
    o.suffer e i = o := by
  obtain ⟨⟨busy, error, raised, routed⟩, status⟩ := o
  cases i with
  | finish d failed => simp_all [suffer]
  | service => simp_all [suffer, Port.served, Port.pending]

theorem sufferAll_eq_self (hb : o.port.busy = false) (hr : o.port.raised = false) :
    is.foldl (suffer e) o = o := by
  induction is with
  | nil => rfl
  | cons i is ih => rw [List.foldl_cons, suffer_eq_self hb hr, ih]

end Outlook

/-- A direction's outlook, once the reports made on the chip are handed over to the link. -/
def outlook (k : Direction → Channel) (l : Link) (c : Chip) (d : Direction) : Outlook :=
  ⟨c.port (k d).id, (l.markAll c.reports).status d⟩

section Suffering

@[simp] theorem claimed_suffer (i : Interruption) : (c.suffer k i).claimed d = c.claimed d := by
  cases i with
  | finish e failed =>
    simp only [suffer]
    split
    · exact claimed_raise failed
    · rfl
  | service => exact claimed_service

theorem Wired.congr {c' : Chip} (hw : Wired k c) (hc : ∀ d, c'.claimed d = c.claimed d) :
    Wired k c' where
  claimed d := by rw [hc, hw.claimed]
  apart := hw.apart

theorem status_due_self (hc : c.claimed d = some ch) (l : Link) :
    (l.markAll (c.due d)).status d =
      if (c.port ch).pending then .ofReport (if (c.port ch).error then .error else .done)
      else l.status d := by
  unfold due
  rw [hc]
  by_cases hp : (c.port ch).pending <;> simp [hp, Link.markAll, Link.status_mark]

/-- What is due to one direction leaves the cell of the other. -/
theorem status_due_of_ne (hd : e ≠ d) (l : Link) :
    (l.markAll (c.due d)).status e = l.status e := by
  unfold due
  cases c.claimed d with
  | none => rfl
  | some ch =>
    by_cases hp : (c.port ch).pending <;>
      simp [hp, Link.markAll, Link.status_mark, Ne.symm hd]

theorem outlook_service (hw : Wired k c) (l : Link) (e : Direction) :
    c.service.outlook k l e = (c.outlook k l e).suffer e .service := by
  have status : (l.markAll c.service.reports).status e =
      if (c.port (k e).id).pending then
        .ofReport (if (c.port (k e).id).error then .error else .done)
      else (l.markAll c.reports).status e := by
    rw [reports_service, Link.markAll_append, Link.markAll_append]
    cases e with
    | tx => rw [status_due_of_ne (by decide), status_due_self (hw.claimed .tx)]
    | rx => rw [status_due_self (hw.claimed .rx), status_due_of_ne (by decide)]
  rw [outlook, port_service, status]
  rfl

theorem outlook_serveDue (hw : Wired k c) (l : Link) (e : Direction) :
    c.serveDue.outlook k l e = (c.outlook k l e).suffer e .service := by
  by_cases h : c.raw &&& c.enable1 = 0
  · have pending : (c.outlook k l e).port.pending = false := by
      have bit := BitVec.getLsbD_and (x := c.raw) (y := c.enable1) (i := (k e).id)
      rw [h] at bit
      simpa [outlook, port, Port.pending] using bit
    rw [serveDue, if_pos h]
    simp [Outlook.suffer, Port.served, pending]
  · have logged : Wired k (c.log .interrupt) := hw.congr fun _ => rfl
    rw [serveDue, if_neg h, outlook_service logged]
    rfl

/-- A stop leaves the other direction, but for what it lets be served. -/
theorem outlook_halt (hw : Wired k c) (he : e ≠ d) (l : Link) :
    (c.halt (k d).id).outlook k l e =
      (if c.script.spurious then [.service] else []).foldl (Outlook.suffer e)
        (c.outlook k l e) := by
  have ceased : ∀ spurious,
      (c.cease (k d).id spurious).outlook k l e = c.outlook k l e := by
    intro spurious
    rw [outlook, port_cease_of_ne spurious (hw.ne he)]
    cases spurious <;> rfl
  rw [halt_eq]
  split
  · rw [outlook_serveDue (hw.congr fun _ => claimed_cease true), ceased, List.foldl_cons,
      List.foldl_nil]
  · rw [ceased, List.foldl_nil]

/-- An interruption of the chip is one of each direction. -/
theorem outlook_suffer (hw : Wired k c) (l : Link) (e : Direction) (i : Interruption) :
    (c.suffer k i).outlook k l e = (c.outlook k l e).suffer e i := by
  cases i with
  | finish d failed =>
    by_cases hb : (c.port (k d).id).busy
    · rw [suffer, if_pos hb]
      by_cases hd : d = e
      · subst hd
        simp only [outlook, Outlook.suffer, port_raise_self, hb, and_self, if_true]
        rfl
      · simp only [outlook, Outlook.suffer, port_raise_of_ne failed (hw.ne (Ne.symm hd)), hd,
          false_and, if_false]
        rfl
    · rw [suffer, if_neg hb]
      have unmoved : ¬ (d = e ∧ (c.outlook k l e).port.busy) := by
        rintro ⟨rfl, busy⟩
        exact hb busy
      rw [Outlook.suffer, if_neg unmoved]
  | service => exact outlook_service hw l e

theorem claimed_sufferAll (is : List Interruption) :
    (is.foldl (suffer k) c).claimed d = c.claimed d := by
  induction is generalizing c with
  | nil => rfl
  | cons i is ih => rw [List.foldl_cons, ih, claimed_suffer]

theorem outlook_sufferAll (hw : Wired k c) (l : Link) (e : Direction) (is : List Interruption) :
    (is.foldl (suffer k) c).outlook k l e = is.foldl (Outlook.suffer e) (c.outlook k l e) := by
  induction is generalizing c with
  | nil => rfl
  | cons i is ih =>
    rw [List.foldl_cons, ih (hw.congr fun _ => claimed_suffer i), outlook_suffer hw, List.foldl_cons]

end Suffering

section Machines

/-- The state machine an access goes to. -/
def Access.machine? : Access → Option Machine
  | .configure m _ _ _ _ _ _ | .latchLow m _ | .releasePin m _ | .enable m _ | .clearFifos m
  | .restart m | .jump m _ | .push m _ _ | .pull m _ => some m
  | _ => none

/-- The accesses to a state machine, oldest first. -/
def machineLog (c : Chip) (m : Machine) : List Access :=
  (c.accesses.filter (·.machine? = some m)).reverse

/-- The accesses that bring a program back to its first instruction. -/
def Program.resetting (p : Program) : List Access :=
  [.enable p.machine false, .clearFifos p.machine, .restart p.machine,
    .releasePin p.machine p.pin, .jump p.machine p.origin] ++
    if p.running then [.enable p.machine true] else []

theorem Program.reset_eq (p : Program) (c : Chip) : p.reset c = p.resetting.foldl log c := by
  unfold reset resetting
  cases p.running <;> rfl

theorem wiring_reset (p : Program) : (p.reset c).wiring = c.wiring := by
  rw [Program.reset_eq]
  exact List.foldlRecOn (motive := fun c' : Chip => c'.wiring = c.wiring) p.resetting _ rfl
    fun _ same a _ => same

variable {m : Machine}

theorem machineLog_log (a : Access) :
    (c.log a).machineLog m = c.machineLog m ++ if a.machine? = some m then [a] else [] := by
  by_cases h : a.machine? = some m <;> simp [machineLog, log, h]

@[simp] theorem machineLog_mute : (c.mute ch).machineLog m = c.machineLog m := rfl

@[simp] theorem machineLog_unmute : (c.unmute ch).machineLog m = c.machineLog m := rfl

@[simp] theorem machineLog_acknowledge (mask : Word) :
    (c.acknowledge mask).machineLog m = c.machineLog m := rfl

@[simp] theorem machineLog_cease (spurious : Bool) :
    (c.cease ch spurious).machineLog m = c.machineLog m := by
  cases spurious <;> rfl

@[simp] theorem machineLog_service : c.service.machineLog m = c.machineLog m := by
  rw [service_eq]
  rfl

@[simp] theorem machineLog_serveDue : c.serveDue.machineLog m = c.machineLog m := by
  unfold serveDue
  split
  · rfl
  · rw [machineLog_service]
    rfl

@[simp] theorem machineLog_halt : (c.halt ch).machineLog m = c.machineLog m := by
  rw [halt_eq]
  split <;> simp

@[simp] theorem machineLog_suffer (i : Interruption) :
    (c.suffer k i).machineLog m = c.machineLog m := by
  cases i with
  | finish d failed =>
    simp only [suffer]
    split <;> rfl
  | service => exact machineLog_service

theorem machineLog_sufferAll (is : List Interruption) :
    (is.foldl (suffer k) c).machineLog m = c.machineLog m := by
  induction is generalizing c with
  | nil => rfl
  | cons i is ih => rw [List.foldl_cons, ih, machineLog_suffer]

end Machines

end Joybus.Chip

namespace Joybus

open Chip Transceiver

/-- A moment between two accesses to the chip. -/
structure Moment where
  /-- A stop right before it raises an interrupt, which waits to be served. -/
  stray : Bool := false
  interruptions : List Interruption := []

/-- A board whose chip is interrupted between any two accesses to it. -/
structure Exposed where
  board : Board
  /-- The moments to come. After them nothing interrupts. -/
  ahead : List Moment
  /-- The interruptions between accesses so far, oldest first. -/
  past : List Interruption := []

namespace Exposed

/-- Changes the chip alone. -/
def access (x : Exposed) (f : Chip → Chip) : Exposed := { x with board.chip := f x.board.chip }

def suffer (x : Exposed) (is : List Interruption) : Exposed :=
  { x.access (is.foldl (Chip.suffer x.board.channel)) with past := x.past ++ is }

/-- The next moment passes. -/
def elapse (x : Exposed) : Exposed :=
  match x.ahead with
  | [] => x
  | m :: rest => { x with ahead := rest }.suffer m.interruptions

/-- Stops a direction's channel. Where the script has a stop complete its channel, the service
routine runs at once. -/
def stop (x : Exposed) (d : Direction) : Exposed :=
  let ch := (x.board.channel d).id
  if (x.ahead.headD {}).stray then x.access (·.cease ch true)
  else
    { x.access (·.halt ch) with
      past := x.past ++ if x.board.chip.script.spurious then [.service] else [] }

/-- Gives up a direction's transfer. -/
def abort (x : Exposed) (d : Direction) : Exposed :=
  let ch := (x.board.channel d).id
  let x := x.elapse.access (·.mute ch)
  let x := x.elapse.stop d
  let x := x.elapse.access (·.acknowledge (mask ch))
  (x.elapse.access (·.unmute ch)).elapse

/-- Brings a direction's program back to its first instruction. -/
def reset (x : Exposed) (d : Direction) : Exposed :=
  ((x.board.program d).resetting.foldl (fun x a => x.elapse.access (·.log a)) x).elapse

/-- Ends a use of the chip: its reports are handed over. -/
def answer {α : Type} (x : Exposed) (a : α) : Response Exposed α :=
  let r := x.board.answer a x.board.chip
  ⟨r.answer, r.marks, { x with board := r.state }⟩

/-- A use of the board, with a moment before and a moment after it. -/
def around {α : Type} (x : Exposed) (use : Board → Response Board α) : Response Exposed α :=
  let r := use x.elapse.board
  let after := ({ x.elapse with board := r.state } : Exposed).elapse.answer r.answer
  { after with marks := r.marks ++ after.marks }

def respond : (c : Command) → Exposed → Response Exposed c.Answer
  | .abort d, x => (x.abort d).answer ()
  | .reset d, x => (x.reset d).answer ()
  | c, x => x.around (Board.respond c)

/-- The exposed board as the transceiver's hardware. -/
def hardware : Hardware Exposed where
  respond := respond
  capacity d x := Board.hardware.capacity d x.board
  programCounter d x := Board.hardware.programCounter d x.board
  startDelay us x := { x with board := Board.hardware.startDelay us x.board }
  pollDelay x := x.around Board.pollDelay
  interrupt m x := x.around (Board.hardware.interrupt m)

end Exposed

section Fitting
variable {k : Direction → Channel} {p : Direction → Program} {b : Board}

/-- The board has these channels, one claimed for each direction, and these programs. -/
structure Board.Fitted (k : Direction → Channel) (p : Direction → Program) (b : Board) : Prop where
  channel : b.channel = k
  program : b.program = p
  wired : Wired k b.chip

theorem Board.respond_startTx (b : Board) (words : List Word) :
    Board.respond (.startTx words) b =
      b.answer () (b.chip.start b.txChannel (.fromMemory words)).2 := rfl

theorem Board.respond_startRx (b : Board) (count : Nat) :
    Board.respond (.startRx count) b =
      b.answer (b.chip.start b.rxChannel (.toMemory count)).1
        (b.chip.start b.rxChannel (.toMemory count)).2 := rfl

namespace Board.Fitted

theorem congr (hb : b.Fitted k p) (chip : Chip) (hc : chip.claimed = b.chip.claimed) :
    Board.Fitted k p { b with chip } :=
  ⟨hb.channel, hb.program, hb.wired.congr (congrFun hc)⟩

theorem answer {α : Type} (hb : b.Fitted k p) (a : α) (chip : Chip)
    (hc : chip.claimed = b.chip.claimed) : (b.answer a chip).state.Fitted k p :=
  hb.congr { chip with reports := [] } hc

theorem respond (hb : b.Fitted k p) (c : Command) : (Board.respond c b).state.Fitted k p := by
  cases c with
  | flag d i => exact hb.answer _ ((b.program d).readFlag b.chip i).2 rfl
  | clear d i => exact hb.answer () ((b.program d).clearFlag b.chip i) rfl
  | notify d => exact hb.answer () ((b.program d).notify b.chip) rfl
  | push d w => exact hb.answer _ ((b.program d).push b.chip w).2 rfl
  | pull d => exact hb.answer _ ((b.program d).pull b.chip).2 rfl
  | reset d =>
    have wiring := wiring_reset (c := b.chip) (b.program d)
    exact hb.answer () ((b.program d).reset b.chip) (congrArg Wiring.claimed wiring)
  | startTx words =>
    rw [respond_startTx]
    exact hb.answer () _ (congrArg Wiring.claimed (wiring_start b.txChannel (.fromMemory words)))
  | startRx count =>
    rw [respond_startRx]
    exact hb.answer _ _ (congrArg Wiring.claimed (wiring_start b.rxChannel (.toMemory count)))
  | abort d =>
    have wiring := wiring_abort (c := b.chip) (b.channel d)
    exact hb.answer () _ (congrArg Wiring.claimed wiring)

theorem pollDelay (hb : b.Fitted k p) : b.pollDelay.state.Fitted k p := by
  have wiring : ∀ (ms : List Mark) (chip : Chip),
      (ms.foldl b.completeMark chip).wiring = chip.wiring := by
    intro ms
    induction ms with
    | nil => exact fun _ => rfl
    | cons m ms ih => exact fun chip => (ih _).trans (wiring_complete _)
  exact hb.answer _ _ (congrArg Wiring.claimed (wiring _ _))

theorem interrupt (hb : b.Fitted k p) (m : Mark) :
    (Board.hardware.interrupt m b).state.Fitted k p :=
  hb.answer () _ (congrArg Wiring.claimed (wiring_complete _))

end Board.Fitted

end Fitting

namespace Exposed
variable {k : Direction → Channel} {p : Direction → Program} {x y z : Exposed}
  {spared : Direction → Prop} {d : Direction}

/-- From `x` to `y` the board stays as it is fitted, and nothing but interruptions happens to the
directions that are spared. -/
structure Passage (k : Direction → Channel) (p : Direction → Program) (spared : Direction → Prop)
    (x y : Exposed) : Prop where
  fitted : y.board.Fitted k p
  spares : ∃ since, y.past = x.past ++ since ∧ ∀ l e, spared e →
    y.board.chip.outlook k l e = since.foldl (Outlook.suffer e) (x.board.chip.outlook k l e)

theorem Passage.trans (hx : Passage k p spared x y) (hy : Passage k p spared y z) :
    Passage k p spared x z := by
  obtain ⟨first, past, spares⟩ := hx.spares
  obtain ⟨second, past', spares'⟩ := hy.spares
  refine ⟨hy.fitted, first ++ second, ?_, ?_⟩
  · rw [past', past, List.append_assoc]
  · intro l e he
    rw [spares' l e he, spares l e he, List.foldl_append]

theorem passage_refl (spared : Direction → Prop) (hx : x.board.Fitted k p) :
    Passage k p spared x x :=
  ⟨hx, [], by simp, fun _ _ _ => rfl⟩

theorem passage_suffer (spared : Direction → Prop) (hx : x.board.Fitted k p)
    (is : List Interruption) : Passage k p spared x (x.suffer is) where
  fitted := hx.congr _ (funext fun _ => claimed_sufferAll is)
  spares := by
    refine ⟨is, rfl, fun l e _ => ?_⟩
    have suffered := outlook_sufferAll hx.wired l e is
    rw [← hx.channel] at suffered ⊢
    exact suffered

/-- A moment is nothing but interruptions. -/
theorem passage_elapse (spared : Direction → Prop) (hx : x.board.Fitted k p) :
    Passage k p spared x x.elapse := by
  unfold elapse
  split
  · exact passage_refl spared hx
  · next m rest _ =>
    obtain ⟨fitted, spares⟩ :=
      passage_suffer (x := { x with ahead := rest }) spared hx m.interruptions
    exact ⟨fitted, spares⟩

namespace Passage

theorem moment (hy : Passage k p spared x y) : Passage k p spared x y.elapse :=
  hy.trans (passage_elapse spared hy.fitted)

/-- An access that the spared directions have no part in. -/
theorem access {f : Chip → Chip} (hy : Passage k p spared x y)
    (hc : (f y.board.chip).claimed = y.board.chip.claimed)
    (hr : (f y.board.chip).reports = y.board.chip.reports)
    (hp : ∀ e, spared e → (f y.board.chip).port (k e).id = y.board.chip.port (k e).id) :
    Passage k p spared x (y.access f) := by
  refine hy.trans ⟨hy.fitted.congr _ hc, [], by simp [Exposed.access], ?_⟩
  intro l e he
  simp only [Exposed.access, outlook, hr, hp e he, List.foldl_nil]

theorem log (hy : Passage k p spared x y) (a : Access) :
    Passage k p spared x (y.access (·.log a)) :=
  hy.access rfl rfl fun _ _ => rfl

theorem mute (hy : Passage k p (· ≠ d) x y) :
    Passage k p (· ≠ d) x (y.access (·.mute (k d).id)) :=
  hy.access rfl rfl fun _ he => port_mute_of_ne (hy.fitted.wired.ne he)

theorem unmute (hy : Passage k p (· ≠ d) x y) :
    Passage k p (· ≠ d) x (y.access (·.unmute (k d).id)) :=
  hy.access rfl rfl fun _ he => port_unmute_of_ne (hy.fitted.wired.ne he)

theorem acknowledge (hy : Passage k p (· ≠ d) x y) :
    Passage k p (· ≠ d) x (y.access (·.acknowledge (mask (k d).id))) :=
  hy.access rfl rfl fun _ he => port_acknowledge_of_ne (hy.fitted.wired.ne he)

theorem stop (hy : Passage k p (· ≠ d) x y) : Passage k p (· ≠ d) x (y.stop d) := by
  unfold Exposed.stop
  rw [hy.fitted.channel]
  simp only
  split
  · refine hy.access (congrArg Wiring.claimed (wiring_cease true)) rfl ?_
    exact fun e he => port_cease_of_ne true (hy.fitted.wired.ne he)
  · refine hy.trans ⟨hy.fitted.congr _ (congrArg Wiring.claimed wiring_halt), _, rfl, ?_⟩
    exact fun l e he => outlook_halt hy.fitted.wired he l

end Passage

/-- Giving up a direction's transfer leaves the other direction to its interruptions. -/
theorem passage_abort (hx : x.board.Fitted k p) (d : Direction) :
    Passage k p (· ≠ d) x (x.abort d) := by
  unfold abort
  rw [hx.channel]
  have stopped := (passage_elapse (· ≠ d) hx).mute.moment.stop
  exact stopped.moment.acknowledge.moment.unmute.moment

/-- A program that is brought back concerns no channel. -/
theorem passage_reset (hx : x.board.Fitted k p) (d : Direction) :
    Passage k p (fun _ => True) x (x.reset d) := by
  have logged : ∀ (as : List Access) {y : Exposed}, Passage k p (fun _ => True) x y →
      Passage k p (fun _ => True) x (as.foldl (fun y a => y.elapse.access (·.log a)) y) := by
    intro as
    induction as with
    | nil => exact fun hy => hy
    | cons a as ih => exact fun hy => ih (hy.moment.log a)
  exact (logged _ (passage_refl _ hx)).moment

section Own

theorem busy_elapse (hx : x.board.Fitted k p)
    (hb : (x.board.chip.port (k d).id).busy = false) :
    (x.elapse.board.chip.port (k d).id).busy = false := by
  obtain ⟨since, -, spares⟩ := (passage_elapse (fun _ => True) hx).spares
  have suffered : (since.foldl (Outlook.suffer d) (x.board.chip.outlook k {} d)).port.busy = false :=
    Outlook.busy_sufferAll hb
  rw [← spares {} d trivial] at suffered
  exact suffered

/-- Interruptions do nothing to a channel at rest. -/
theorem Passage.at_rest (hy : Passage k p spared x y) (hd : spared d)
    (hb : (x.board.chip.port (k d).id).busy = false)
    (hr : (x.board.chip.port (k d).id).raised = false) (l : Link) :
    y.board.chip.outlook k l d = x.board.chip.outlook k l d := by
  obtain ⟨since, -, spares⟩ := hy.spares
  rw [spares l d hd, Outlook.sufferAll_eq_self hb hr]

theorem port_elapse (hx : x.board.Fitted k p) (hb : (x.board.chip.port (k d).id).busy = false)
    (hr : (x.board.chip.port (k d).id).raised = false) :
    x.elapse.board.chip.port (k d).id = x.board.chip.port (k d).id :=
  congrArg Outlook.port ((passage_elapse (fun _ => True) hx).at_rest trivial hb hr {})

theorem busy_stop (hx : x.board.Fitted k p) :
    ((x.stop d).board.chip.port (k d).id).busy = false := by
  unfold stop
  rw [hx.channel]
  simp only
  split
  · simp [access]
  · simp only [access]
    rw [halt_eq]
    split <;> simp [Port.served]

/-- An idle channel's interrupt is cleared and let through, whatever interrupts meanwhile. -/
theorem port_clear (hx : x.board.Fitted k p) (hb : (x.board.chip.port (k d).id).busy = false) :
    ((x.access (·.acknowledge (mask (k d).id))).elapse.access
        (·.unmute (k d).id)).elapse.board.chip.port (k d).id =
      ⟨false, (x.board.chip.port (k d).id).error, false, true⟩ := by
  have cleared := (passage_refl (· ≠ d) hx).acknowledge
  have acknowledged : (x.access (·.acknowledge (mask (k d).id))).board.chip.port (k d).id =
      ⟨false, (x.board.chip.port (k d).id).error, false,
        (x.board.chip.port (k d).id).routed⟩ := by
    simp [access, hb]
  have rested := port_elapse cleared.fitted (by rw [acknowledged]) (by rw [acknowledged])
  rw [acknowledged] at rested
  have through := cleared.moment.unmute
  generalize (x.access (·.acknowledge (mask (k d).id))).elapse = y at rested through ⊢
  have unmuted : (y.access (·.unmute (k d).id)).board.chip.port (k d).id =
      ⟨false, (x.board.chip.port (k d).id).error, false, true⟩ := by
    simp [access, rested]
  rw [port_elapse through.fitted (by rw [unmuted]) (by rw [unmuted]), unmuted]

/-- A transfer that is given up leaves its channel idle, without an interrupt and let through. -/
theorem port_abort (hx : x.board.Fitted k p) (d : Direction) :
    ∃ error, (x.abort d).board.chip.port (k d).id = ⟨false, error, false, true⟩ := by
  have muted := (passage_elapse (· ≠ d) hx).mute.moment
  have halted := busy_elapse muted.stop.fitted (busy_stop muted.fitted)
  have cleared := port_clear muted.stop.moment.fitted halted
  unfold abort
  rw [hx.channel]
  exact ⟨_, cleared⟩

end Own

section Machines
variable {m : Machine}

@[simp] theorem machineLog_elapse :
    x.elapse.board.chip.machineLog m = x.board.chip.machineLog m := by
  unfold elapse
  split
  · rfl
  · exact machineLog_sufferAll _

theorem machineLog_stop (d : Direction) :
    (x.stop d).board.chip.machineLog m = x.board.chip.machineLog m := by
  unfold stop
  simp only
  split
  · exact machineLog_cease true
  · exact machineLog_halt

/-- Giving up a transfer leaves the state machines alone. -/
theorem machineLog_abort (d : Direction) :
    (x.abort d).board.chip.machineLog m = x.board.chip.machineLog m := by
  simp [abort, access, machineLog_stop]

/-- A program that is brought back is accessed as its reset says, and no other. -/
theorem machineLog_reset (x : Exposed) (d : Direction) :
    (x.reset d).board.chip.machineLog (x.board.program d).machine =
      x.board.chip.machineLog (x.board.program d).machine ++ (x.board.program d).resetting := by
  have logged : ∀ {m : Machine} (as : List Access) (y : Exposed),
      (∀ a ∈ as, a.machine? = some m) → (as.foldl (fun y a => y.elapse.access (·.log a)) y).board.chip.machineLog m =
        y.board.chip.machineLog m ++ as := by
    intro m as
    induction as with
    | nil => simp
    | cons a as ih =>
      intro y ha
      obtain ⟨first, rest⟩ := List.forall_mem_cons.1 ha
      rw [List.foldl_cons, ih _ rest]
      simp [access, machineLog_log, first]
  have own : ∀ a ∈ (x.board.program d).resetting,
      a.machine? = some (x.board.program d).machine := by
    unfold Program.resetting
    cases (x.board.program d).running <;> simp [Access.machine?]
  rw [reset, machineLog_elapse]
  exact logged _ x own

end Machines

section Calm

theorem reports_respond (c : Command) (b : Board) :
    (Board.respond c b).state.chip.reports = [] := by
  cases c with
  | startTx words => rw [Board.respond_startTx]; rfl
  | startRx count => rw [Board.respond_startRx]; rfl
  | _ => rfl

theorem around_calm {α : Type} {use : Board → Response Board α} {b : Board}
    (hr : (use b).state.chip.reports = []) (past : List Interruption) :
    (⟨b, [], past⟩ : Exposed).around use =
      ⟨(use b).answer, (use b).marks, ⟨(use b).state, [], past⟩⟩ := by
  have same : { (use b).state.chip with reports := [] } = (use b).state.chip := by rw [← hr]
  simp only [around, elapse, answer, Board.answer, takeReports, hr, same, List.append_nil]

theorem respond_calm (c : Command) (b : Board) (past : List Interruption) :
    ∃ past', respond c ⟨b, [], past⟩ =
      ⟨(Board.respond c b).answer, (Board.respond c b).marks,
        ⟨(Board.respond c b).state, [], past'⟩⟩ := by
  cases c with
  | abort d => exact ⟨_, rfl⟩
  | reset d =>
    have logged : ∀ (as : List Access) (b : Board),
        as.foldl (fun y a => Exposed.access y.elapse (·.log a)) (⟨b, [], past⟩ : Exposed) =
          ⟨{ b with chip := as.foldl log b.chip }, [], past⟩ := by
      intro as
      induction as with
      | nil => exact fun _ => rfl
      | cons a as ih => exact fun b => ih _
    refine ⟨past, ?_⟩
    simp only [respond, reset, logged, Board.respond, Program.reset_eq]
    rfl
  | flag | clear | notify | push | pull | startTx | startRx =>
    exact ⟨past, around_calm (reports_respond _ b) past⟩

/-- With no moments to come an exposed board does what the board does. -/
theorem projects_calm : hardware.Projects Board.hardware board fun x => x.ahead = [] where
  respond := by
    rintro c ⟨b, ahead, past⟩ rfl
    obtain ⟨past', same⟩ := respond_calm c b past
    exact congrArg (fun r : Response Exposed c.Answer => r.state.ahead) same
  startDelay us x hx := hx
  pollDelay := by
    rintro ⟨b, ahead, past⟩ rfl
    rfl
  interrupt := by
    rintro m ⟨b, ahead, past⟩ rfl
    rfl
  respond_eq := by
    rintro c ⟨b, ahead, past⟩ rfl
    obtain ⟨past', same⟩ := respond_calm c b past
    exact congrArg (Response.project board) same
  capacity_eq d x hx := rfl
  startDelay_eq us x hx := rfl
  pollDelay_eq := by
    rintro ⟨b, ahead, past⟩ rfl
    exact congrArg (Response.project board) (around_calm rfl past)
  interrupt_eq := by
    rintro m ⟨b, ahead, past⟩ rfl
    exact congrArg (Response.project board) (around_calm rfl past)

end Calm

end Exposed

end Joybus
