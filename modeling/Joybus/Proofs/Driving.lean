import Joybus.Transceiver.Session

/-! Driven calls step by step, what hardware keeps while it is used, and hardware that stands in for
other hardware. -/
namespace Joybus.Transceiver

variable {σ α : Type} {H : Hardware σ}

/-- Where a driven call stands. -/
inductive Position (α : Type) where
  | running (c : Call α)
  | stopped (p : Pause α)

/-- Where a poll leaves a call. -/
@[simp] def Progress.position : Progress α → Position α
  | finished a => .running (.done a)
  | paused p => .stopped p

namespace Position

/-- One action, or one look at a wait, with what it leaves in the trace. -/
inductive Step (H : Hardware σ) : Position α → World σ → Trace → Position α → World σ → Prop where
  | act (a : Action) (next : a.Answer → Call α) (w : World σ) :
      Step H (.running (.act a next)) w (H.perform w a).trace
        (.running (next (H.perform w a).value)) (H.perform w a).world
  | pass (p : Wait) (undo : List Action) (next : p.Answer → Call α) (w : World σ) (x : p.Answer)
      (ended : (H.enter w p).value = some x) :
      Step H (.running (.wait p undo next)) w (H.enter w p).trace
        (.running (next x)) (H.enter w p).world
  | stop (p : Wait) (undo : List Action) (next : p.Answer → Call α) (w : World σ)
      (waits : (H.enter w p).value = none) :
      Step H (.running (.wait p undo next)) w (H.enter w p).trace
        (.stopped ⟨p, undo, next⟩) (H.enter w p).world
  | resume (p : Pause α) (w : World σ) (x : p.wait.Answer)
      (ended : (H.revisit w p.wait).value = some x) :
      Step H (.stopped p) w (H.revisit w p.wait).trace
        (.running (p.next x)) (H.revisit w p.wait).world
  | stay (p : Pause α) (w : World σ) (waits : (H.revisit w p.wait).value = none) :
      Step H (.stopped p) w (H.revisit w p.wait).trace (.stopped p) (H.revisit w p.wait).world

/-- Any number of steps. -/
inductive Reaches (H : Hardware σ) :
    Position α → World σ → Trace → Position α → World σ → Prop where
  | refl (s : Position α) (w : World σ) : Reaches H s w [] s w
  | head {s t u : Position α} {w w' w'' : World σ} {tr rest : Trace} :
      Step H s w tr t w' → Reaches H t w' rest u w'' → Reaches H s w (tr ++ rest) u w''

theorem Step.reaches {s t : Position α} {w w' : World σ} {tr : Trace} (hs : Step H s w tr t w') :
    Reaches H s w tr t w' := by
  simpa using Reaches.head hs (.refl t w')

theorem Reaches.trans {s t u : Position α} {w w' w'' : World σ} {tr rest : Trace}
    (hs : Reaches H s w tr t w') (ht : Reaches H t w' rest u w'') :
    Reaches H s w (tr ++ rest) u w'' := by
  induction hs with
  | refl => exact ht
  | head first _ ih =>
    rw [List.append_assoc]
    exact .head first (ih ht)

end Position

open Position (Step Reaches)

section Driving

/-- A poll takes steps. -/
theorem Call.advance_reaches (H : Hardware σ) (call : Call α) (w : World σ) :
    Reaches H (.running call) w (call.advance H w).trace (call.advance H w).value.position
      (call.advance H w).world := by
  induction call generalizing w with
  | done a => exact .refl _ w
  | act a next ih => exact .head (.act a next w) (ih _ _)
  | wait p undo next ih =>
    unfold Call.advance
    cases hv : (H.enter w p).value with
    | some x =>
      simp only [hv]
      exact .head (.pass p undo next w x hv) (ih x _)
    | none =>
      simp only [hv]
      exact (Step.stop p undo next w hv).reaches

theorem Pause.poll_reaches (H : Hardware σ) (p : Pause α) (w : World σ) :
    Reaches H (.stopped p) w (p.poll H w).trace (p.poll H w).value.position
      (p.poll H w).world := by
  unfold Pause.poll
  cases hv : (H.revisit w p.wait).value with
  | some x =>
    simp only [hv]
    exact .head (.resume p w x hv) ((p.next x).advance_reaches H _)
  | none =>
    simp only [hv]
    exact (Step.stay p w hv).reaches

/-- A call that is driven to its end takes steps. -/
theorem Pause.drive_reaches {p : Pause α} {w : World σ} {polls left : Nat} {a : α}
    (hv : (p.drive H polls w).value = .finished a left) :
    Reaches H (.stopped p) w (p.drive H polls w).trace (.running (.done a))
      (p.drive H polls w).world := by
  induction polls generalizing p w with
  | zero => simp [Pause.drive, Outcome.map] at hv
  | succ polls ih =>
    have polled := p.poll_reaches H w
    cases hp : (p.poll H w).value with
    | finished b =>
      simp only [Pause.drive, hp, Outcome.map, Ending.finished.injEq] at hv
      rw [hp, hv.1] at polled
      simpa [Pause.drive, hp, Outcome.map] using polled
    | paused q =>
      simp only [Pause.drive, hp, Outcome.after] at hv
      rw [hp] at polled
      have rest := polled.trans (ih hv)
      simpa [Pause.drive, hp, Outcome.after] using rest

@[inherit_doc Pause.drive_reaches]
theorem Call.drive_reaches {call : Call α} {w : World σ} {polls left : Nat} {a : α}
    (hv : (call.drive H w polls).value = .finished a left) :
    Reaches H (.running call) w (call.drive H w polls).trace (.running (.done a))
      (call.drive H w polls).world := by
  cases polls with
  | zero => simp [Call.drive] at hv
  | succ polls =>
    have advanced := call.advance_reaches H w
    cases hp : (call.advance H w).value with
    | finished b =>
      simp only [Call.drive, hp, Outcome.map, Ending.finished.injEq] at hv
      rw [hp, hv.1] at advanced
      simpa [Call.drive, hp, Outcome.map] using advanced
    | paused p =>
      simp only [Call.drive, hp, Outcome.after] at hv
      rw [hp] at advanced
      have rest := advanced.trans (Pause.drive_reaches hv)
      simpa [Call.drive, hp, Outcome.after] using rest

end Driving

section Maintaining

/-- Whatever the hardware is used for, it keeps the property. -/
structure Hardware.Maintains (H : Hardware σ) (I : σ → Prop) : Prop where
  respond : ∀ c s, I s → I (H.respond c s).state
  startDelay : ∀ us s, I s → I (H.startDelay us s)
  pollDelay : ∀ s, I s → I (H.pollDelay s).state
  interrupt : ∀ m s, I s → I (H.interrupt m s).state

namespace Hardware.Maintains
variable {I : σ → Prop} {w w' : World σ} (hm : H.Maintains I)
include hm

theorem perform (hw : I w.hardware) (a : Action) : I (H.perform w a).world.hardware := by
  cases a with
  | command c => exact hm.respond c _ hw
  | _ => exact hw

theorem performAll (hw : I w.hardware) (as : List Action) :
    I (H.performAll w as).world.hardware := by
  induction as generalizing w with
  | nil => exact hw
  | cons a as ih => exact ih (hm.perform hw a)

theorem beginDelay (hw : I w.hardware) (us : Nat) : I (H.beginDelay us w).world.hardware :=
  hm.pollDelay _ (hm.startDelay us _ hw)

omit hm in
theorem pollCompletion {delay : World σ → Outcome σ Bool}
    (hd : ∀ w, I w.hardware → I (delay w).world.hardware) (hw : I w.hardware) (d : Direction) :
    I (w.pollCompletion d delay).world.hardware := by
  unfold World.pollCompletion
  simp only
  split
  · exact hw
  · split <;> exact hd _ hw

theorem enter (hw : I w.hardware) (p : Wait) : I (H.enter w p).world.hardware := by
  cases p with
  | nap us => exact hm.beginDelay hw us
  | completion d us => exact pollCompletion (fun _ hw => hm.beginDelay hw us) hw d

theorem revisit (hw : I w.hardware) (p : Wait) : I (H.revisit w p).world.hardware := by
  cases p with
  | nap us => exact hm.pollDelay _ hw
  | completion d us => exact pollCompletion (fun _ hw => hm.pollDelay _ hw) hw d

theorem reaches {s t : Position α} {tr : Trace} (hr : Reaches H s w tr t w')
    (hw : I w.hardware) : I w'.hardware := by
  induction hr with
  | refl => exact hw
  | head first _ ih =>
    apply ih
    cases first with
    | act a next w => exact hm.perform hw a
    | pass p undo next w | stop p undo next w => exact hm.enter hw p
    | resume p w | stay p w => exact hm.revisit hw p.wait

theorem pause (hw : I w.hardware) (p : Pause α) (polls : Nat) :
    I (p.drive H polls w).world.hardware := by
  induction polls generalizing p w with
  | zero => exact hm.performAll hw p.undo
  | succ polls ih =>
    have polled := hm.reaches (p.poll_reaches H w) hw
    simp only [Pause.drive]
    split
    · exact polled
    · exact ih polled _

/-- A call that is driven keeps it, however it ends. -/
theorem drive (hw : I w.hardware) (call : Call α) (polls : Nat) :
    I (call.drive H w polls).world.hardware := by
  cases polls with
  | zero => exact hw
  | succ polls =>
    have advanced := hm.reaches (call.advance_reaches H w) hw
    simp only [Call.drive]
    split
    · exact advanced
    · exact hm.pause advanced _ polls

theorem step {s : Session σ} (hs : I s.world.hardware) (op : Operation) :
    I (s.step H op).2.1.world.hardware := by
  cases op with
  | request r polls => exact hm.drive hs (r.call s.config) polls
  | cancel => exact hm.reaches (Call.advance_reaches H _ _) hs
  | disturb m => exact hm.interrupt m _ hs
  | take d => exact hs
  | recreate c => exact hm.performAll hs farewell

/-- A run of any operations keeps it. -/
theorem run {s : Session σ} (hs : I s.world.hardware) (ops : List Operation) :
    I (s.run H ops).2.world.hardware := by
  induction ops generalizing s with
  | nil => exact hs
  | cons op ops ih => exact ih (hm.step hs op)

end Hardware.Maintains

end Maintaining

section Projecting
variable {τ : Type} {H' : Hardware τ} {f : τ → σ} {I : τ → Prop} {w : World τ}

def Response.project (f : τ → σ) (r : Response τ α) : Response σ α :=
  ⟨r.answer, r.marks, f r.state⟩

def World.project (f : τ → σ) (w : World τ) : World σ := ⟨w.link, f w.hardware⟩

def Outcome.project (f : τ → σ) (o : Outcome τ α) : Outcome σ α :=
  ⟨o.value, o.world.project f, o.trace⟩

def Session.project (f : τ → σ) (s : Session τ) : Session σ := ⟨s.config, s.world.project f⟩

/-- In the states with `I`, hardware `H'` does what `H` does in the state that `f` makes of its
own. -/
structure Hardware.Projects (H' : Hardware τ) (H : Hardware σ) (f : τ → σ) (I : τ → Prop) : Prop
    extends H'.Maintains I where
  respond_eq : ∀ c s, I s → (H'.respond c s).project f = H.respond c (f s)
  capacity_eq : ∀ d s, I s → H'.capacity d s = H.capacity d (f s)
  startDelay_eq : ∀ us s, I s → f (H'.startDelay us s) = H.startDelay us (f s)
  pollDelay_eq : ∀ s, I s → (H'.pollDelay s).project f = H.pollDelay (f s)
  interrupt_eq : ∀ m s, I s → (H'.interrupt m s).project f = H.interrupt m (f s)

namespace Hardware.Projects
variable (hp : H'.Projects H f I)
include hp

theorem perform_eq (hw : I w.hardware) (a : Action) :
    (H'.perform w a).project f = H.perform (w.project f) a := by
  cases a with
  | command c =>
    simp only [Hardware.perform, Hardware.issue, World.project, ← hp.respond_eq c _ hw]
    rfl
  | capacity d =>
    simp only [Hardware.perform, World.project, ← hp.capacity_eq d _ hw]
    rfl
  | _ => rfl

theorem performAll_eq (hw : I w.hardware) (as : List Action) :
    (H'.performAll w as).project f = H.performAll (w.project f) as := by
  induction as generalizing w with
  | nil => rfl
  | cons a as ih =>
    simp only [Hardware.performAll, ← hp.perform_eq hw a]
    exact congrArg (Outcome.after · _) (ih (hp.perform hw a))

theorem lookAtDelay_eq (hw : I w.hardware) :
    (H'.lookAtDelay w).project f = H.lookAtDelay (w.project f) := by
  simp only [Hardware.lookAtDelay, World.project, ← hp.pollDelay_eq _ hw]
  rfl

theorem beginDelay_eq (us : Nat) (hw : I w.hardware) :
    (H'.beginDelay us w).project f = H.beginDelay us (w.project f) := by
  have looked := hp.lookAtDelay_eq (w := { w with hardware := H'.startDelay us w.hardware })
    (hp.startDelay us _ hw)
  simp only [Hardware.beginDelay, World.project, ← hp.startDelay_eq us _ hw]
  exact congrArg (Outcome.after · _) looked

omit hp in
theorem pollCompletion_eq {delay : World τ → Outcome τ Bool} {delay' : World σ → Outcome σ Bool}
    (hd : ∀ {w}, I w.hardware → (delay w).project f = delay' (w.project f)) (hw : I w.hardware)
    (d : Direction) :
    (w.pollCompletion d delay).project f = (w.project f).pollCompletion d delay' := by
  have seen : (w.lookAtCell d).project f = (w.project f).lookAtCell d := rfl
  simp only [World.pollCompletion, ← seen]
  cases hv : (w.lookAtCell d).value with
  | some r => simp only [Outcome.project, hv]; rfl
  | none =>
    have looked := hd (w := (w.lookAtCell d).world) hw
    simp only [Outcome.project, hv]
    simp only [Outcome.project] at looked
    rw [← looked]
    cases hl : (delay (w.lookAtCell d).world).value with
    | true => simp only [Outcome.after, hl, if_true]; rfl
    | false => simp only [Outcome.after, hl, Bool.false_eq_true, if_false]; rfl

theorem enter_eq (hw : I w.hardware) (p : Wait) :
    (H'.enter w p).project f = H.enter (w.project f) p := by
  cases p with
  | nap us => simp only [Hardware.enter, World.pollNap, ← hp.beginDelay_eq us hw]; rfl
  | completion d us => exact pollCompletion_eq (hp.beginDelay_eq us) hw d

theorem revisit_eq (hw : I w.hardware) (p : Wait) :
    (H'.revisit w p).project f = H.revisit (w.project f) p := by
  cases p with
  | nap us => simp only [Hardware.revisit, World.pollNap, ← hp.lookAtDelay_eq hw]; rfl
  | completion d us => exact pollCompletion_eq hp.lookAtDelay_eq hw d

theorem advance_eq (hw : I w.hardware) (call : Call α) :
    (call.advance H' w).project f = call.advance H (w.project f) := by
  induction call generalizing w with
  | done a => rfl
  | act a next ih =>
    simp only [Call.advance, ← hp.perform_eq hw a]
    exact congrArg (Outcome.after · _) (ih _ (hp.perform hw a))
  | wait p undo next ih =>
    simp only [Call.advance, ← hp.enter_eq hw p]
    cases hv : (H'.enter w p).value with
    | some x =>
      simp only [Outcome.project, hv]
      exact congrArg (Outcome.after · _) (ih x (hp.enter hw p))
    | none => simp only [Outcome.project, hv]; rfl

theorem poll_eq (hw : I w.hardware) (p : Pause α) :
    (p.poll H' w).project f = p.poll H (w.project f) := by
  simp only [Pause.poll, ← hp.revisit_eq hw p.wait]
  cases hv : (H'.revisit w p.wait).value with
  | some x =>
    simp only [Outcome.project, hv]
    exact congrArg (Outcome.after · _) (hp.advance_eq (hp.revisit hw p.wait) (p.next x))
  | none => simp only [Outcome.project, hv]; rfl

theorem pause_eq (hw : I w.hardware) (p : Pause α) (polls : Nat) :
    (p.drive H' polls w).project f = p.drive H polls (w.project f) := by
  induction polls generalizing p w with
  | zero => simp only [Pause.drive, Pause.drop, ← hp.performAll_eq hw p.undo]; rfl
  | succ polls ih =>
    simp only [Pause.drive, ← hp.poll_eq hw p]
    cases hv : (p.poll H' w).value with
    | finished a => simp only [Outcome.project, hv]; rfl
    | paused q =>
      simp only [Outcome.project, hv]
      exact congrArg (Outcome.after · _) (ih (hp.reaches (p.poll_reaches H' w) hw) q)

theorem drive_eq (hw : I w.hardware) (call : Call α) (polls : Nat) :
    (call.drive H' w polls).project f = call.drive H (w.project f) polls := by
  cases polls with
  | zero => rfl
  | succ polls =>
    simp only [Call.drive, ← hp.advance_eq hw call]
    cases hv : (call.advance H' w).value with
    | finished a => simp only [Outcome.project, hv]; rfl
    | paused p =>
      simp only [Outcome.project, hv]
      exact congrArg (Outcome.after · _) (hp.pause_eq (hp.reaches (call.advance_reaches H' w) hw) p _)

theorem step_eq {s : Session τ} (hs : I s.world.hardware) (op : Operation) :
    (s.project f).step H op =
      ((s.step H' op).1, (s.step H' op).2.1.project f, (s.step H' op).2.2) := by
  cases op with
  | request r polls =>
    have driven := hp.drive_eq hs (r.call s.config) polls
    simp only [Session.step, Session.drive, Session.project, ← driven]
    rfl
  | cancel =>
    have advanced := hp.advance_eq hs (cancelReceive s.config)
    simp only [Session.step, Session.project, ← advanced]
    rfl
  | disturb m =>
    simp only [Session.step, Session.project, Hardware.disturb, World.project,
      ← hp.interrupt_eq m _ hs]
    rfl
  | take d => rfl
  | recreate c =>
    have performed := hp.performAll_eq hs farewell
    simp only [Session.step, Session.close, Session.project, ← performed]
    rfl

/-- Whatever operations are run on the one, they give the same on the other. -/
theorem run_eq {s : Session τ} (hs : I s.world.hardware) (ops : List Operation) :
    (s.project f).run H ops = ((s.run H' ops).1, (s.run H' ops).2.project f) := by
  induction ops generalizing s with
  | nil => rfl
  | cons op ops ih =>
    simp only [Session.run, hp.step_eq hs op, ih (hp.step hs op)]

end Hardware.Projects

end Projecting

end Joybus.Transceiver
