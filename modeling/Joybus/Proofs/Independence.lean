import Joybus.Proofs.Driving
import Joybus.Proofs.Failures

/-! The two directions are independent: over hardware of two separate sides, what one direction does
is the same whatever is done on the other in between. -/
namespace Joybus.Transceiver

open Completion (Cell Cells)

variable {σ α β : Type} {τ : Direction → Type} {H : Hardware σ} {part : (d : Direction) → σ → τ d}
  {d e : Direction} {l l' : Link} {m : Mark} {ms : List Mark} {w w' : World σ}

section Halves

namespace Link

/-- What a send works with. -/
structure TxHalf where
  state : TxState
  cell : Cell Unit
  staged : Buffer WordStream.capacity

/-- What a receive works with. -/
structure RxHalf where
  state : RxState
  expected : Option Nat
  cell : Cell Unit
  received : Buffer rxCapacity

@[reducible] def Half : Direction → Type
  | .tx => TxHalf
  | .rx => RxHalf

/-- What direction `d` works with. -/
def half (l : Link) : (d : Direction) → Half d
  | .tx => ⟨l.tx, l.cells.tx, l.staged⟩
  | .rx => ⟨l.rx, l.expected, l.cells.rx, l.received⟩

/-- Both halves make up the link. -/
theorem eq_of_halves (hh : ∀ d, l.half d = l'.half d) : l = l' := by
  have ht := hh .tx
  have hr := hh .rx
  obtain ⟨tx, rx, expected, ⟨_, _⟩, staged, received⟩ := l
  obtain ⟨tx', rx', expected', ⟨_, _⟩, staged', received'⟩ := l'
  simp_all [half]

theorem status_of_half (hh : l.half d = l'.half d) : l.status d = l'.status d := by
  cases d with
  | tx => exact congrArg (Cell.status ∘ TxHalf.cell) hh
  | rx => exact congrArg (Cell.status ∘ RxHalf.cell) hh

/-- A use of one cell leaves the other half alone. -/
theorem half_modify_of_ne (l : Link) (f : Cell Unit → Cell Unit) (he : e ≠ d) :
    half { l with cells := l.cells.modify d f } e = l.half e := by
  cases d <;> cases e <;> first | rfl | exact (he rfl).elim

theorem half_modify_congr (f : Cell Unit → Cell Unit) (hh : l.half d = l'.half d) :
    half { l with cells := l.cells.modify d f } d =
      half { l' with cells := l'.cells.modify d f } d := by
  cases d with
  | tx => exact congrArg (fun t : TxHalf => { t with cell := f t.cell }) hh
  | rx => exact congrArg (fun r : RxHalf => { r with cell := f r.cell }) hh

theorem half_markAll_of_ne (l : Link) (hm : ∀ m ∈ ms, m.dir = d) (he : e ≠ d) :
    (l.markAll ms).half e = l.half e := by
  induction ms generalizing l with
  | nil => rfl
  | cons m ms ih =>
    obtain ⟨rfl, hs⟩ := List.forall_mem_cons.1 hm
    exact (ih (l.mark m) hs).trans (half_modify_of_ne l _ he)

/-- Reports of one direction, and what they find, concern its half alone. -/
theorem half_markAll_congr (hm : ∀ m ∈ ms, m.dir = d) (hh : l.half d = l'.half d) :
    (l.markAll ms).half d = (l'.markAll ms).half d ∧ l.markTrace ms = l'.markTrace ms := by
  induction ms generalizing l l' with
  | nil => exact ⟨hh, rfl⟩
  | cons m ms ih =>
    obtain ⟨rfl, hs⟩ := List.forall_mem_cons.1 hm
    have first : (l.mark m).half m.dir = (l'.mark m).half m.dir := half_modify_congr _ hh
    obtain ⟨rest, trace⟩ := ih hs first
    refine ⟨rest, ?_⟩
    rw [markTrace, markTrace, status_of_half hh, trace]

end Link

/-- An action works on its own half of the link. -/
theorem Action.half_effect_of_ne {a : Action} (x : a.Answer) (l : Link) (he : e ≠ a.side) :
    (a.effect x l).half e = l.half e := by
  cases a with
  | command c =>
    cases c with
    | startRx n =>
      cases e with
      | tx => simp only [effect, Link.deposit, Link.half]
      | rx => exact (he rfl).elim
    | _ => simp only [effect, Link.deposit]
  | arm d | disarm d => exact Link.half_modify_of_ne l _ he
  | _ => cases e <;> first | exact (he rfl).elim | rfl

/-- What an action makes of its own half depends on nothing else. -/
theorem Action.half_effect_congr {a : Action} (x : a.Answer)
    (hh : l.half a.side = l'.half a.side) :
    (a.effect x l).half a.side = (a.effect x l').half a.side := by
  cases a with
  | command c =>
    cases c with
    | startRx n =>
      exact congrArg (fun r : Link.RxHalf => { r with received := r.received.overwrite (x.take n) })
        hh
    | _ => exact hh
  | arm d | disarm d => exact Link.half_modify_congr _ hh
  | setTx s => exact congrArg (fun t : Link.TxHalf => { t with state := s }) hh
  | setRx s => exact congrArg (fun r : Link.RxHalf => { r with state := s }) hh
  | setExpected n => exact congrArg (fun r : Link.RxHalf => { r with expected := n }) hh
  | stage ws =>
    exact congrArg (fun t : Link.TxHalf => { t with staged := t.staged.overwrite ws }) hh
  | store i word =>
    exact congrArg
      (fun r : Link.RxHalf => { r with received := r.received.setIfInBounds i word }) hh
  | capacity d | status d | txState | expected | staged n | fetch n => exact hh

end Halves

section Separation

/-- Hardware made of two separate sides and a delay. A side answers from its own part alone, changes
no other and reports on its own cell only. A delay is over at once, and nothing happens in it. -/
structure Hardware.Parted (H : Hardware σ) (part : (d : Direction) → σ → τ d) : Prop where
  respond_eq : ∀ c s s', part c.side s = part c.side s' →
    (H.respond c s).project (part c.side) = (H.respond c s').project (part c.side)
  respond_of_ne : ∀ c s e, e ≠ c.side → part e (H.respond c s).state = part e s
  reports : ∀ c s, ∀ m ∈ (H.respond c s).marks, m.dir = c.side
  capacity_eq : ∀ d s s', part d s = part d s' → H.capacity d s = H.capacity d s'
  ended : ∀ us s, (H.pollDelay (H.startDelay us s)).answer = true
  silent : ∀ us s, (H.pollDelay (H.startDelay us s)).marks = []
  spared : ∀ us s d, part d (H.pollDelay (H.startDelay us s)).state = part d s

/-- The share of direction `d` in the world: its half of the link and its part of the hardware. -/
def World.share (part : (d : Direction) → σ → τ d) (d : Direction) (w : World σ) :
    Link.Half d × τ d :=
  (w.link.half d, part d w.hardware)

/-- What an outcome is to direction `d`. -/
def Outcome.share (part : (d : Direction) → σ → τ d) (d : Direction) (o : Outcome σ α) :
    α × Trace × Link.Half d × τ d :=
  (o.value, o.trace, o.world.share part d)

/-- A wait whose delay is over at once: its answer, the link after it and its trace. -/
def Wait.atOnce : (p : Wait) → Link → p.Answer × Link × Trace
  | .nap us, l => ((), l, [.delayed us])
  | .completion d us, l =>
    ((l.status d).report?, (l.leaveWaker d).take d,
      match (l.status d).report? with
      | some r => [.consumed ⟨d, r⟩]
      | none => [.delayed us])

theorem Wait.half_atOnce_of_ne {p : Wait} (hp : p.On d) (l : Link) (he : e ≠ d) :
    (p.atOnce l).2.1.half e = l.half e := by
  cases p with
  | nap us => rfl
  | completion d us =>
    obtain rfl := hp
    exact (Link.half_modify_of_ne _ _ he).trans (Link.half_modify_of_ne l _ he)

theorem Wait.atOnce_congr {p : Wait} (hp : p.On d) (hh : l.half d = l'.half d) :
    (p.atOnce l).1 = (p.atOnce l').1 ∧ (p.atOnce l).2.1.half d = (p.atOnce l').2.1.half d ∧
      (p.atOnce l).2.2 = (p.atOnce l').2.2 := by
  cases p with
  | nap us => exact ⟨rfl, hh, rfl⟩
  | completion d us =>
    obtain rfl := hp
    refine ⟨?_, ?_, ?_⟩
    · simp only [atOnce, Link.status_of_half hh]
    · exact Link.half_modify_congr _ (Link.half_modify_congr _ hh)
    · simp only [atOnce, Link.status_of_half hh]

theorem Outcome.share_inj {o o' : Outcome σ α} (ho : o.share part d = o'.share part d) :
    o.value = o'.value ∧ o.trace = o'.trace ∧ o.world.share part d = o'.world.share part d := by
  simpa only [share, Prod.mk.injEq] using ho

theorem Outcome.share_after {o o' : Outcome σ α} (tr : Trace)
    (ho : o.share part d = o'.share part d) :
    (o.after tr).share part d = (o'.after tr).share part d := by
  obtain ⟨value, trace, world⟩ := share_inj ho
  simp only [share, after, value, trace]
  exact congrArg _ (congrArg _ world)

theorem World.share_settle {a : Action} {x x' : a.Answer} {f : Link → Link} (hx : x = x')
    (hf : (f w.link).half d = (f w'.link).half d)
    (own : part d w.hardware = part d w'.hardware) :
    (w.settle a x f).share part d = (w'.settle a x' f).share part d := by
  subst hx
  exact congrArg ((x, [_], ·)) (Prod.ext hf own)

end Separation

namespace Hardware.Parted
variable (hp : H.Parted part)
include hp

section Steps

theorem perform_of_ne {a : Action} (w : World σ) (he : e ≠ a.side) :
    (H.perform w a).world.share part e = w.share part e := by
  cases a with
  | command c =>
    refine Prod.ext ?_ (hp.respond_of_ne c _ e he)
    exact (Link.half_markAll_of_ne _ (hp.reports c _) he).trans
      (Action.half_effect_of_ne (a := .command c) _ _ he)
  | _ => exact Prod.ext (Action.half_effect_of_ne (H.perform w _).value _ he) rfl

/-- What an action does to its own side depends on nothing else. -/
theorem perform_eq {a : Action} (hw : w.share part a.side = w'.share part a.side) :
    (H.perform w a).share part a.side = (H.perform w' a).share part a.side := by
  obtain ⟨half, own⟩ := Prod.mk.inj hw
  cases a with
  | command c =>
    obtain ⟨answer, marks, state⟩ := Response.mk.inj (hp.respond_eq c _ _ own)
    have told := Action.half_effect_congr (a := .command c) (H.respond c w'.hardware).answer half
    obtain ⟨marked, -⟩ := Link.half_markAll_congr (hp.reports c w'.hardware) told
    obtain ⟨-, trace⟩ := Link.half_markAll_congr (hp.reports c w'.hardware) half
    simp only [Outcome.share, World.share, Hardware.perform, Hardware.issue, World.absorb,
      World.update, answer, marks, trace]
    exact congrArg _ (congrArg _ (Prod.ext marked state))
  | capacity d => exact World.share_settle (hp.capacity_eq d _ _ own) half own
  | status d => exact World.share_settle (Link.status_of_half (d := d) half) half own
  | txState => exact World.share_settle (congrArg Link.TxHalf.state half) half own
  | expected => exact World.share_settle (congrArg Link.RxHalf.expected half) half own
  | staged n =>
    have staged : w.link.staged = w'.link.staged := congrArg Link.TxHalf.staged half
    exact World.share_settle (congrArg (·.take n) staged) half own
  | fetch n =>
    have received : w.link.received = w'.link.received := congrArg Link.RxHalf.received half
    exact World.share_settle (congrArg (·.toList.take n) received) half own
  | _ => exact World.share_settle rfl (Action.half_effect_congr () half) own

theorem beginDelay_eq (us : Nat) (w : World σ) :
    ∃ s, (∀ d, part d s = part d w.hardware) ∧
      H.beginDelay us w = ⟨true, ⟨w.link, s⟩, [.delayed us]⟩ := by
  refine ⟨_, hp.spared us w.hardware, ?_⟩
  simp only [Hardware.beginDelay, Hardware.lookAtDelay, Outcome.after, World.absorb,
    hp.ended us w.hardware, hp.silent us w.hardware, Link.markAll, Link.markTrace, List.append_nil]

/-- Every wait ends with its first poll, and hardware is left as it is. -/
theorem enter_eq (p : Wait) (w : World σ) :
    ∃ s, (∀ d, part d s = part d w.hardware) ∧
      H.enter w p =
        ⟨some (p.atOnce w.link).1, ⟨(p.atOnce w.link).2.1, s⟩, (p.atOnce w.link).2.2⟩ := by
  cases p with
  | nap us =>
    obtain ⟨s, hs, began⟩ := hp.beginDelay_eq us w
    refine ⟨s, hs, ?_⟩
    simp only [Hardware.enter, World.pollNap, began]
    rfl
  | completion d us =>
    cases hr : (w.link.status d).report? with
    | some r =>
      refine ⟨w.hardware, fun _ => rfl, ?_⟩
      simp only [Hardware.enter, World.pollCompletion, World.lookAtCell_eq, hr, Wait.atOnce]
      rfl
    | none =>
      have unreported : ((w.link.leaveWaker d).status d).report? = none := by
        rw [Link.status_leaveWaker, hr]
      have seen : w.lookAtCell d = ⟨none, ⟨w.link.leaveWaker d, w.hardware⟩, []⟩ := by
        rw [World.lookAtCell_eq, hr, World.update, Link.take_eq_self unreported]
        rfl
      obtain ⟨s, hs, began⟩ := hp.beginDelay_eq us ⟨w.link.leaveWaker d, w.hardware⟩
      refine ⟨s, hs, ?_⟩
      simp only [Hardware.enter, World.pollCompletion, seen, began, Outcome.after, if_true,
        World.consume, unreported, Wait.atOnce, hr]
      rfl

end Steps

section Calls
variable {call : Call α}

theorem advance_of_ne (hc : call.OnSide d) (w : World σ) (he : e ≠ d) :
    (call.advance H w).world.share part e = w.share part e := by
  induction call generalizing w with
  | done a => rfl
  | act a next ih =>
    obtain ⟨rfl, hn⟩ := hc
    exact (ih _ (hn _) _).trans (hp.perform_of_ne w he)
  | wait p undo next ih =>
    obtain ⟨⟨on, -⟩, hn⟩ := hc
    obtain ⟨s, spared, entered⟩ := hp.enter_eq p w
    simp only [Call.advance, entered]
    exact (ih _ (hn _) _).trans (Prod.ext (Wait.half_atOnce_of_ne on w.link he) (spared e))

/-- What a call of one direction does to its own side depends on nothing else. -/
theorem advance_eq (hc : call.OnSide d) (hw : w.share part d = w'.share part d) :
    (call.advance H w).share part d = (call.advance H w').share part d := by
  induction call generalizing w w' with
  | done a => exact congrArg ((Progress.finished a, [], ·)) hw
  | act a next ih =>
    obtain ⟨rfl, hn⟩ := hc
    have first := hp.perform_eq hw
    obtain ⟨value, trace, world⟩ := Outcome.share_inj first
    simp only [Call.advance, value, trace]
    exact Outcome.share_after _ (ih _ (hn _) world)
  | wait p undo next ih =>
    obtain ⟨⟨on, -⟩, hn⟩ := hc
    obtain ⟨s, spared, entered⟩ := hp.enter_eq p w
    obtain ⟨s', spared', entered'⟩ := hp.enter_eq p w'
    obtain ⟨half, own⟩ := Prod.mk.inj hw
    obtain ⟨answer, told, trace⟩ := Wait.atOnce_congr on half
    simp only [Call.advance, entered, entered', answer, trace]
    refine Outcome.share_after _ (ih _ (hn _) (Prod.ext told ?_))
    exact (spared d).trans (own.trans (spared' d).symm)

/-- A poll ends every call. -/
theorem advance_ends (call : Call α) (w : World σ) :
    ∃ a, (call.advance H w).value = .finished a := by
  induction call generalizing w with
  | done a => exact ⟨a, rfl⟩
  | act a next ih => exact ih _ _
  | wait p undo next ih =>
    obtain ⟨s, -, entered⟩ := hp.enter_eq p w
    simp only [Call.advance, entered]
    exact ih _ _

theorem drive_of_ne (hc : call.OnSide d) (w : World σ) (polls : Nat) (he : e ≠ d) :
    (call.drive H w polls).world.share part e = w.share part e := by
  cases polls with
  | zero => rfl
  | succ polls =>
    obtain ⟨a, ended⟩ := hp.advance_ends call w
    simp only [Call.drive, ended]
    exact hp.advance_of_ne hc w he

@[inherit_doc advance_eq]
theorem drive_eq (hc : call.OnSide d) (hw : w.share part d = w'.share part d) (polls : Nat) :
    (call.drive H w polls).share part d = (call.drive H w' polls).share part d := by
  cases polls with
  | zero => exact congrArg ((Ending.dropped, [], ·)) hw
  | succ polls =>
    obtain ⟨a, ended⟩ := hp.advance_ends call w
    have advanced := hp.advance_eq hc hw
    obtain ⟨value, trace, world⟩ := Outcome.share_inj advanced
    simp only [Call.drive, ended, ← value, Outcome.share, Outcome.map, trace, world]

end Calls

end Hardware.Parted

section Operations

/-- The one direction an operation concerns, if there is one. -/
def Operation.side? : Operation → Option Direction
  | .request r _ => r.side?
  | .cancel => some .rx
  | .disturb _ | .take _ | .recreate _ => none

theorem Call.Uses.map {A : Action → Prop} {W : Wait → List Action → Prop} {call : Call α}
    {f : α → β} (hc : call.Uses A W) : (f <$> call).Uses A W :=
  hc.bind fun _ => trivial

theorem Request.onSide {r : Request} (hr : r.side? = some d) (c : LinkConfig) :
    (r.call c).OnSide d := by
  cases r with
  | send bytes timeout =>
    cases Option.some.inj hr
    exact Call.Uses.map (send_onSide c bytes timeout)
  | arm len =>
    cases Option.some.inj hr
    exact Call.Uses.map (armReceive_onSide c len)
  | finish timeout =>
    cases Option.some.inj hr
    exact Call.Uses.map (finishReceive_onSide c timeout)
  | receive len timeout =>
    cases Option.some.inj hr
    refine Call.Uses.map (Call.Uses.bind (armReceive_onSide c len) ?_)
    intro armed
    cases armed with
    | error e => trivial
    | ok => exact finishReceive_onSide c timeout
  | exchange bytes len timeout => cases hr

/-- Giving up a receive concerns the receive side alone. -/
theorem cancelReceive_on (c : LinkConfig) : (cancelReceive c).OnSide .rx :=
  (cancelReceive_onSide c).mono (fun _ ha => ha) fun _ _ hw => hw.elim

/-- What a session is to direction `d`. -/
def Session.share (part : (d : Direction) → σ → τ d) (d : Direction) (s : Session σ) :
    LinkConfig × Link.Half d × τ d :=
  (s.config, s.world.share part d)

/-- The command that was given to direction `d`, with its answer. -/
def Event.issued? (d : Direction) : Event → Option ((c : Command) × c.Answer)
  | .acted (.command c) x => if c.side = d then some ⟨c, x⟩ else none
  | _ => none

/-- What was done to the hardware of direction `d`. -/
def Trace.issued (d : Direction) (h : Trace) : List ((c : Command) × c.Answer) :=
  h.filterMap (Event.issued? d)

@[simp] theorem Trace.issued_append (d : Direction) (h h' : Trace) :
    Trace.issued d (h ++ h') = h.issued d ++ h'.issued d := List.filterMap_append

/-- What a run does to the hardware of direction `d`. -/
def Session.issued (H : Hardware σ) (s : Session σ) (ops : List Operation) (d : Direction) :
    List ((c : Command) × c.Answer) :=
  Trace.issued d ((s.run H ops).1.map Prod.snd).flatten

@[simp] theorem Session.issued_cons (H : Hardware σ) (s : Session σ) (op : Operation)
    (ops : List Operation) (d : Direction) :
    s.issued H (op :: ops) d = (s.step H op).2.2.issued d ++ (s.step H op).2.1.issued H ops d := by
  simp [issued, run]

theorem keeps_unissued (e : Direction) :
    Keeps (·.side ≠ e) (fun _ => True) fun _ h => ∀ ev ∈ h, Event.issued? e ev = none := by
  refine (keeps_forall (E := fun ev => ev.issued? e = none) ?_).weaken ?_ fun _ hd => hd
  · intro ev hv
    cases ev with
    | acted a x => exact hv.elim
    | _ => rfl
  · intro a ha x
    cases a with
    | command c => exact if_neg ha
    | _ => rfl

/-- An operation of one direction is nothing to the hardware of the other. -/
theorem step_issued {op : Operation} (ho : op.side? = some d) (H : Hardware σ) (s : Session σ)
    (he : e ≠ d) : (s.step H op).2.2.issued e = [] := by
  have other : ∀ a : Action, a.side = d → a.side ≠ e := by
    rintro a rfl
    exact he.symm
  refine List.filterMap_eq_nil_iff.2 ?_
  cases op with
  | request r polls =>
    have kept := (keeps_unissued e).onSide (l := s.world.link) (h := [])
      (Request.onSide ho s.config) other trivial (by simp)
    exact kept.keeps H (by simp) polls
  | cancel =>
    cases Option.some.inj ho
    have kept := (keeps_unissued e).uses (R := fun _ _ => False) (l := s.world.link) (h := [])
      (cancelReceive_onSide s.config) other (fun _ _ hw => hw.elim) (fun _ _ hw => hw.elim)
      (by simp)
    obtain ⟨_, _, unissued⟩ := Call.Ensures.finishes H kept
    exact unissued
  | disturb m | take d | recreate c => cases ho

/-- The last list has the elements of the other two, those of each in their order. -/
inductive Interleaved : List α → List α → List α → Prop
  | nil : Interleaved [] [] []
  | left {xs ys zs : List α} (x : α) : Interleaved xs ys zs → Interleaved (x :: xs) ys (x :: zs)
  | right {xs ys zs : List α} (y : α) : Interleaved xs ys zs → Interleaved xs (y :: ys) (y :: zs)

end Operations

namespace Hardware.Parted
variable (hp : H.Parted part)
include hp

section Runs
variable {op : Operation} {s s' : Session σ}

theorem step_of_ne (ho : op.side? = some d) (s : Session σ) (he : e ≠ d) :
    (s.step H op).2.1.share part e = s.share part e := by
  cases op with
  | request r polls => exact Prod.ext rfl (hp.drive_of_ne (Request.onSide ho s.config) _ polls he)
  | cancel =>
    cases Option.some.inj ho
    exact Prod.ext rfl (hp.advance_of_ne (cancelReceive_on s.config) _ he)
  | disturb m | take d | recreate c => cases ho

/-- What an operation of one direction does to its own side depends on nothing else. -/
theorem step_eq (ho : op.side? = some d) (hs : s.share part d = s'.share part d) :
    (s.step H op).1 = (s'.step H op).1 ∧
      (s.step H op).2.1.share part d = (s'.step H op).2.1.share part d ∧
      (s.step H op).2.2 = (s'.step H op).2.2 := by
  obtain ⟨config, own⟩ := Prod.mk.inj hs
  cases op with
  | request r polls =>
    have driven := hp.drive_eq (Request.onSide ho s.config) own polls
    obtain ⟨value, trace, world⟩ := Outcome.share_inj driven
    simp only [Session.step, Session.drive, Session.share, ← config, value, trace, world, and_self]
  | cancel =>
    cases Option.some.inj ho
    have advanced := hp.advance_eq (cancelReceive_on s.config) own
    obtain ⟨-, trace, world⟩ := Outcome.share_inj advanced
    simp only [Session.step, Session.share, ← config, trace, world, and_self]
  | disturb m | take d | recreate c => cases ho

/-- A run of operations of both directions is to each of them what its own operations are, made
alone. -/
theorem run_interleaved {sends receives ops : List Operation}
    (hi : Interleaved sends receives ops) (hs : ∀ op ∈ sends, op.side? = some .tx)
    (hr : ∀ op ∈ receives, op.side? = some .rx) {s s₁ s₂ : Session σ}
    (h₁ : s.share part .tx = s₁.share part .tx) (h₂ : s.share part .rx = s₂.share part .rx) :
    Interleaved (sends.zip (s₁.run H sends).1) (receives.zip (s₂.run H receives).1)
        (ops.zip (s.run H ops).1) ∧
      (s.run H ops).2.share part .tx = (s₁.run H sends).2.share part .tx ∧
      (s.run H ops).2.share part .rx = (s₂.run H receives).2.share part .rx ∧
      s.issued H ops .tx = s₁.issued H sends .tx ∧
      s.issued H ops .rx = s₂.issued H receives .rx := by
  induction hi generalizing s s₁ s₂ with
  | nil => exact ⟨.nil, h₁, h₂, rfl, rfl⟩
  | left op _ ih =>
    obtain ⟨ho, hs⟩ := List.forall_mem_cons.1 hs
    obtain ⟨result, own, trace⟩ := hp.step_eq ho h₁
    have other := (hp.step_of_ne ho s (e := .rx) (by simp)).trans h₂
    obtain ⟨rest, tx, rx, sent, received⟩ := ih hs hr own other
    refine ⟨?_, tx, rx, ?_, ?_⟩
    · have first := Interleaved.left (op, (s.step H op).1, (s.step H op).2.2) rest
      simp only [Session.run, List.zip_cons_cons, ← result, ← trace]
      exact first
    · rw [Session.issued_cons, Session.issued_cons, trace, sent]
    · rw [Session.issued_cons, step_issued ho H s (by simp), received, List.nil_append]
  | right op _ ih =>
    obtain ⟨ho, hr⟩ := List.forall_mem_cons.1 hr
    obtain ⟨result, own, trace⟩ := hp.step_eq ho h₂
    have other := (hp.step_of_ne ho s (e := .tx) (by simp)).trans h₁
    obtain ⟨rest, tx, rx, sent, received⟩ := ih hs hr other own
    refine ⟨?_, tx, rx, ?_, ?_⟩
    · have first := Interleaved.right (op, (s.step H op).1, (s.step H op).2.2) rest
      simp only [Session.run, List.zip_cons_cons, ← result, ← trace]
      exact first
    · rw [Session.issued_cons, step_issued ho H s (by simp), sent, List.nil_append]
    · rw [Session.issued_cons, Session.issued_cons, trace, received]

end Runs

end Hardware.Parted

/-- Transmit and receive are independent. Over hardware of two separate sides whose delays are over
at once, from any state: an operation of one direction leaves the other as it is, its half of the
link and its hardware alike, and every request of one direction is answered. However a sequence of
sends and one of receive operations are interleaved, each operation comes back with the result and
the trace it has if the other sequence is not there at all, the log of each side of the hardware is
the same, and so is what each direction is left with; all interleavings end with the same link. -/
theorem directions_independent (H : Hardware σ) (part : (d : Direction) → σ → τ d)
    (hp : H.Parted part) (s : Session σ) :
    (∀ op d e, op.side? = some d → e ≠ d →
      (s.step H op).2.1.world.link.half e = s.world.link.half e ∧
      part e (s.step H op).2.1.world.hardware = part e s.world.hardware ∧
      (s.step H op).2.2.issued e = []) ∧
    (∀ r d polls, r.side? = some d →
      ∃ reply, (s.step H (.request r (polls + 1))).1 = .replied reply) ∧
    ∀ sends receives, (∀ op ∈ sends, op.side? = some .tx) →
      (∀ op ∈ receives, op.side? = some .rx) → ∀ ops, Interleaved sends receives ops →
        Interleaved (sends.zip (s.run H sends).1) (receives.zip (s.run H receives).1)
          (ops.zip (s.run H ops).1) ∧
        s.issued H ops .tx = s.issued H sends .tx ∧ s.issued H ops .rx = s.issued H receives .rx ∧
        (s.run H ops).2.share part .tx = (s.run H sends).2.share part .tx ∧
        (s.run H ops).2.share part .rx = (s.run H receives).2.share part .rx ∧
        ∀ ops', Interleaved sends receives ops' →
          (s.run H ops').2.world.link = (s.run H ops).2.world.link := by
  refine ⟨?_, ?_, ?_⟩
  · intro op d e ho he
    obtain ⟨half, own⟩ := Prod.mk.inj (Prod.mk.inj (hp.step_of_ne ho s he)).2
    exact ⟨half, own, step_issued ho H s he⟩
  · intro r d polls _
    obtain ⟨reply, ended⟩ := hp.advance_ends (r.call s.config) s.world
    refine ⟨reply, ?_⟩
    simp only [Session.step, Session.drive, Call.drive, ended, Outcome.map]
  · intro sends receives hs hr ops hi
    obtain ⟨results, tx, rx, sent, received⟩ := hp.run_interleaved hi hs hr rfl rfl
    refine ⟨results, sent, received, tx, rx, ?_⟩
    intro ops' hi'
    obtain ⟨-, tx', rx', -, -⟩ := hp.run_interleaved hi' hs hr rfl rfl
    refine Link.eq_of_halves ?_
    intro d
    cases d with
    | tx => exact congrArg (·.2.1) (tx'.trans tx.symm)
    | rx => exact congrArg (·.2.1) (rx'.trans rx.symm)

theorem side_setSide_of_ne (s : Bench.Script) (x : Bench.Side) (he : e ≠ d) :
    (s.setSide d x).side e = s.side e := by
  cases d <;> cases e <;> first | exact (he rfl).elim | rfl

theorem dir_of_mem_marks {f : Bench.Fate} (hm : m ∈ f.marks d) : m.dir = d := by
  cases f with
  | never => exact (List.not_mem_nil hm).elim
  | done | error => exact congrArg Mark.dir (List.mem_singleton.1 hm)

/-- Scripted hardware is made of two sides. -/
theorem prompt_parted : prompt.Parted fun d (s : Bench.Script) => s.side d where
  respond_eq c s s' hs := by
    obtain ⟨tx, rx, delays, delay, spurious⟩ := s
    obtain ⟨tx', rx', delays', delay', spurious'⟩ := s'
    cases c with
    | startTx words =>
      obtain rfl : tx = tx' := hs
      rfl
    | startRx count =>
      obtain rfl : rx = rx' := hs
      rfl
    | flag d i | clear d i | notify d | reset d | push d word | pull d | abort d =>
      cases d with
      | tx =>
        obtain rfl : tx = tx' := hs
        rfl
      | rx =>
        obtain rfl : rx = rx' := hs
        rfl
  respond_of_ne c s e he := by
    cases c with
    | clear d i | notify d | reset d | abort d => rfl
    | startRx count =>
      cases e with
      | tx => rfl
      | rx => exact (he rfl).elim
    | _ => exact side_setSide_of_ne s _ he
  reports c s m hm := by
    cases c with
    | startTx words | startRx count => exact dir_of_mem_marks hm
    | _ => exact (List.not_mem_nil hm).elim
  capacity_eq d s s' hs := congrArg Bench.Side.capacity hs
  ended us s := rfl
  silent us s := rfl
  spared us s d := by cases d <;> rfl

/-- The first transfer sent fails and the first one received never ends; a receive is armed before
a send and given up after it, or tried and given up while nothing is sent. -/
theorem directions_independent_unlucky :
    let s := Session.start {} unlucky
    let send := Operation.request (.send [0x41, 0x02] 10) 1
    let arm := Operation.request (.arm 2) 1
    let woven := [send, arm, send, .cancel, arm]
    let apart := [arm, .cancel, arm, send, send]
    (s.run prompt apart).2.world.link = (s.run prompt woven).2.world.link ∧
      s.issued prompt woven .tx = s.issued prompt [send, send] .tx ∧
      s.issued prompt apart .rx = s.issued prompt woven .rx ∧
      (s.step prompt send).2.1.world.link.half .rx = s.world.link.half .rx ∧
      ∃ reply, (s.step prompt send).1 = .replied reply := by
  intro s send arm woven apart
  obtain ⟨frame, answered, interleaved⟩ := directions_independent prompt _ prompt_parted s
  have sends : ∀ op ∈ [send, send], op.side? = some .tx := by
    simp [send, Operation.side?, Request.side?]
  have receives : ∀ op ∈ [arm, .cancel, arm], op.side? = some .rx := by
    simp [arm, Operation.side?, Request.side?]
  have hw : Interleaved [send, send] [arm, .cancel, arm] woven :=
    .left _ (.right _ (.left _ (.right _ (.right _ .nil))))
  have ha : Interleaved [send, send] [arm, .cancel, arm] apart :=
    .right _ (.right _ (.right _ (.left _ (.left _ .nil))))
  obtain ⟨-, sent, received, -, -, link⟩ := interleaved _ _ sends receives woven hw
  obtain ⟨-, -, received', -, -, -⟩ := interleaved _ _ sends receives apart ha
  obtain ⟨half, -, -⟩ := frame send .tx .rx rfl (by simp)
  exact ⟨link apart ha, sent, received'.trans received.symm, half, answered _ .tx 0 rfl⟩

end Joybus.Transceiver
