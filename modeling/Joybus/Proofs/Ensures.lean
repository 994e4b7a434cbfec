import Joybus.Proofs.Reports

/-! What a call guarantees whatever the hardware answers, and that driving it keeps the promise. -/
namespace Joybus.Transceiver

open Completion (Report)

variable {σ α β : Type}

/-- Performing the action after the history `h` leads to `K`, whatever the hardware answers and
its engines report meanwhile. -/
def Action.Ensures : (a : Action) → (a.Answer → Link → Trace → Prop) → Link → Trace → Prop
  | .command c, K, l, h => ∀ x ms,
      K x ((l.deposit c x).markAll ms) (h ++ .acted (.command c) x :: l.markTrace ms)
  | .capacity d, K, l, h => ∀ n, K n l (h ++ [.acted (.capacity d) n])
  | .status d, K, l, h => K (l.status d) l (h ++ [.acted (.status d) (l.status d)])
  | .arm d, K, l, h =>
      K () { l with cells := l.cells.modify d .arm } (h ++ [.acted (.arm d) ()])
  | .disarm d, K, l, h =>
      K () { l with cells := l.cells.modify d .disarm } (h ++ [.acted (.disarm d) ()])
  | .txState, K, l, h => K l.tx l (h ++ [.acted .txState l.tx])
  | .setTx s, K, l, h => K () { l with tx := s } (h ++ [.acted (.setTx s) ()])
  | .setRx s, K, l, h => K () { l with rx := s } (h ++ [.acted (.setRx s) ()])
  | .expected, K, l, h => K l.expected l (h ++ [.acted .expected l.expected])
  | .setExpected n, K, l, h => K () { l with expected := n } (h ++ [.acted (.setExpected n) ()])
  | .stage ws, K, l, h =>
      K () { l with staged := l.staged.overwrite ws } (h ++ [.acted (.stage ws) ()])
  | .staged n, K, l, h =>
      K (l.staged.take n) l (h ++ [.acted (.staged n) (l.staged.take n)])
  | .store i x, K, l, h =>
      K () { l with received := l.received.setIfInBounds i x } (h ++ [.acted (.store i x) ()])
  | .fetch n, K, l, h =>
      K (l.received.toList.take n) l (h ++ [.acted (.fetch n) (l.received.toList.take n)])

/-- Performing the actions in order leads to `R`. -/
def Action.EnsuresAll (R : Link → Trace → Prop) : List Action → Link → Trace → Prop
  | [] => R
  | a :: rest => a.Ensures fun _ => EnsuresAll R rest

/-- What beginning a wait's delay leaves in the trace. -/
def Wait.beginning : Wait → Trace
  | .nap us | .completion _ us => [.delayed us]

/-- A wait, whose next look at the delay leaves `began` in the trace: as long as it goes on `P`
holds, and it ends with `K`. A report that is there already ends it without a delay. -/
def Wait.Ensures (P : Link → Trace → Prop) (began : Trace) :
    (p : Wait) → (p.Answer → Link → Trace → Prop) → Link → Trace → Prop
  | .nap _, K, l, h => ∀ ms,
      P (l.markAll ms) (h ++ began ++ l.markTrace ms) ∧
      K () (l.markAll ms) (h ++ began ++ l.markTrace ms)
  | .completion d _, K, l, h =>
      (∀ r, (l.status d).report? = some r →
        K (some r) ((l.leaveWaker d).take d) (h ++ [.consumed ⟨d, r⟩])) ∧
      ((l.status d).report? = none → ∀ ms,
        P ((l.leaveWaker d).markAll ms) (h ++ began ++ l.markTrace ms) ∧
        K (((l.leaveWaker d).markAll ms).status d).report? (((l.leaveWaker d).markAll ms).take d)
          (h ++ began ++ l.markTrace ms ++
            consumption d (((l.leaveWaker d).markAll ms).status d).report?))

/-- Every run of the call from the link `l` after the history `h` ends with `Q`, or, if it is
dropped at a wait, with `R`. -/
def Call.Ensures (Q : α → Link → Trace → Prop) (R : Link → Trace → Prop) :
    Call α → Link → Trace → Prop
  | .done a => Q a
  | .act a next => a.Ensures fun x => (next x).Ensures Q R
  | .wait p undo next =>
    p.Ensures (Action.EnsuresAll R undo) p.beginning fun x => (next x).Ensures Q R

/-- What a stopped call still ensures. -/
def Pause.Ensures (Q : α → Link → Trace → Prop) (R : Link → Trace → Prop) (p : Pause α) (l : Link)
    (h : Trace) : Prop :=
  Action.EnsuresAll R p.undo l h ∧
  p.wait.Ensures (Action.EnsuresAll R p.undo) [] (fun x => (p.next x).Ensures Q R) l h

/-- How a driven call ended, after the history `h`. -/
def Outcome.Meets (Q : α → Link → Trace → Prop) (R : Link → Trace → Prop) (h : Trace)
    (o : Outcome σ (Ending α)) : Prop :=
  match o.value with
  | .finished a _ => Q a o.world.link (h ++ o.trace)
  | .dropped => R o.world.link (h ++ o.trace)

section Rules
variable {Q Q' : α → Link → Trace → Prop} {R R' P P' : Link → Trace → Prop} {l : Link} {h : Trace}

theorem Action.Ensures.mono {a : Action} {K K' : a.Answer → Link → Trace → Prop}
    (he : a.Ensures K l h) (hk : ∀ x l h, K x l h → K' x l h) : a.Ensures K' l h := by
  cases a with
  | command c => intro x ms; exact hk _ _ _ (he x ms)
  | capacity d => intro n; exact hk _ _ _ (he n)
  | _ => exact hk _ _ _ he

theorem Action.EnsuresAll.mono {as : List Action} (he : EnsuresAll R as l h)
    (hr : ∀ l h, R l h → R' l h) : EnsuresAll R' as l h := by
  induction as generalizing l h with
  | nil => exact hr l h he
  | cons a as ih => exact Action.Ensures.mono he fun _ _ _ => ih

theorem Wait.Ensures.mono {p : Wait} {K K' : p.Answer → Link → Trace → Prop} {began : Trace}
    (he : p.Ensures P began K l h) (hp : ∀ l h, P l h → P' l h)
    (hk : ∀ x l h, K x l h → K' x l h) : p.Ensures P' began K' l h := by
  cases p with
  | nap us => intro ms; exact ⟨hp _ _ (he ms).1, hk _ _ _ (he ms).2⟩
  | completion d us =>
    refine ⟨?_, ?_⟩
    · intro r hr
      exact hk _ _ _ (he.1 r hr)
    · intro hr ms
      exact ⟨hp _ _ (he.2 hr ms).1, hk _ _ _ (he.2 hr ms).2⟩

theorem Call.Ensures.mono {c : Call α} (he : c.Ensures Q R l h)
    (hq : ∀ a l h, Q a l h → Q' a l h) (hr : ∀ l h, R l h → R' l h) : c.Ensures Q' R' l h := by
  induction c generalizing l h with
  | done a => exact hq a l h he
  | act a next ih => exact Action.Ensures.mono he fun x _ _ => ih x
  | wait p undo next ih =>
    refine Wait.Ensures.mono he ?_ fun x _ _ => ih x
    intro l h hu
    exact Action.EnsuresAll.mono hu hr

theorem Call.Ensures.imp {c : Call α} (he : c.Ensures Q R l h)
    (hq : ∀ a l h, Q a l h → Q' a l h) : c.Ensures Q' R l h :=
  he.mono hq fun _ _ hr => hr

theorem Action.Ensures.and {a : Action} {K K' : a.Answer → Link → Trace → Prop}
    (he : a.Ensures K l h) (he' : a.Ensures K' l h) :
    a.Ensures (fun x l h => K x l h ∧ K' x l h) l h := by
  cases a with
  | command c => intro x ms; exact ⟨he x ms, he' x ms⟩
  | capacity d => intro n; exact ⟨he n, he' n⟩
  | _ => exact ⟨he, he'⟩

theorem Action.EnsuresAll.and {as : List Action} (he : EnsuresAll R as l h)
    (he' : EnsuresAll R' as l h) : EnsuresAll (fun l h => R l h ∧ R' l h) as l h := by
  induction as generalizing l h with
  | nil => exact ⟨he, he'⟩
  | cons a as ih =>
    refine Action.Ensures.mono (Action.Ensures.and he he') ?_
    intro _ l h hn
    exact ih hn.1 hn.2

theorem Wait.Ensures.and {p : Wait} {K K' : p.Answer → Link → Trace → Prop} {began : Trace}
    (he : p.Ensures P began K l h) (he' : p.Ensures P' began K' l h) :
    p.Ensures (fun l h => P l h ∧ P' l h) began (fun x l h => K x l h ∧ K' x l h) l h := by
  cases p with
  | nap us =>
    intro ms
    exact ⟨⟨(he ms).1, (he' ms).1⟩, (he ms).2, (he' ms).2⟩
  | completion d us =>
    refine ⟨?_, ?_⟩
    · intro r hr
      exact ⟨he.1 r hr, he'.1 r hr⟩
    · intro hr ms
      exact ⟨⟨(he.2 hr ms).1, (he'.2 hr ms).1⟩, (he.2 hr ms).2, (he'.2 hr ms).2⟩

/-- Two promises about the same call hold together. -/
theorem Call.Ensures.and {c : Call α} (he : c.Ensures Q R l h) (he' : c.Ensures Q' R' l h) :
    c.Ensures (fun a l h => Q a l h ∧ Q' a l h) (fun l h => R l h ∧ R' l h) l h := by
  induction c generalizing l h with
  | done a => exact ⟨he, he'⟩
  | act a next ih =>
    refine Action.Ensures.mono (Action.Ensures.and he he') ?_
    intro x l h hn
    exact ih x hn.1 hn.2
  | wait p undo next ih =>
    refine Wait.Ensures.mono (Wait.Ensures.and he he') ?_ ?_
    · intro l h hn
      exact Action.EnsuresAll.and hn.1 hn.2
    · intro x l h hn
      exact ih x hn.1 hn.2

/-- A sequence ensures what its second part ensures from where the first ends. -/
@[simp] theorem Call.ensures_bind {Q : β → Link → Trace → Prop} (c : Call α) (f : α → Call β) :
    (c >>= f).Ensures Q R = c.Ensures (fun a => (f a).Ensures Q R) R := by
  induction c with
  | done a => rfl
  | act a next ih => simp only [Call.bind_act, Call.Ensures, ih]
  | wait p undo next ih => simp only [Call.bind_wait, Call.Ensures, ih]

@[simp] theorem Call.ensures_map {Q : β → Link → Trace → Prop} (c : Call α) (f : α → β) :
    (f <$> c).Ensures Q R = c.Ensures (fun a => Q (f a)) R :=
  Call.ensures_bind c (fun a => .done (f a))

@[simp] theorem Call.ensures_done (a : α) : (Call.done a).Ensures Q R = Q a := rfl

@[simp] theorem Call.ensures_performAll (as : List Action) (K : Unit → Link → Trace → Prop) :
    (Call.performAll as).Ensures K R = Action.EnsuresAll (K ()) as := by
  induction as with
  | nil => rfl
  | cons a as ih => simp only [Call.performAll, Call.Ensures, Action.EnsuresAll, ih]

@[simp] theorem Call.ensures_readFlag (d : Direction) (i : Nat) (K : Bool → Link → Trace → Prop) :
    (Call.readFlag d i).Ensures K R = Action.Ensures (.command (.flag d i)) K := rfl

@[simp] theorem Call.ensures_push (d : Direction) (word : Word) (K : Bool → Link → Trace → Prop) :
    (Call.push d word).Ensures K R = Action.Ensures (.command (.push d word)) K := rfl

@[simp] theorem Call.ensures_pull (d : Direction) (K : Option Word → Link → Trace → Prop) :
    (Call.pull d).Ensures K R = Action.Ensures (.command (.pull d)) K := rfl

@[simp] theorem Call.ensures_startRx (count : Nat) (K : Unit → Link → Trace → Prop) :
    (Call.startRx count).Ensures K R =
      Action.Ensures (.command (.startRx count)) fun _ => K () := rfl

@[simp] theorem Call.ensures_capacity (d : Direction) (K : Nat → Link → Trace → Prop) :
    (Call.capacity d).Ensures K R = Action.Ensures (.capacity d) K := rfl

@[simp] theorem Call.ensures_status (d : Direction) (K : Completion.Status → Link → Trace → Prop) :
    (Call.status d).Ensures K R = Action.Ensures (.status d) K := rfl

@[simp] theorem Call.ensures_arm (d : Direction) (K : Unit → Link → Trace → Prop) :
    (Call.arm d).Ensures K R = Action.Ensures (.arm d) K := rfl

@[simp] theorem Call.ensures_txState (K : TxState → Link → Trace → Prop) :
    Call.txState.Ensures K R = Action.Ensures (.txState) K := rfl

@[simp] theorem Call.ensures_setRx (s : RxState) (K : Unit → Link → Trace → Prop) :
    (Call.setRx s).Ensures K R = Action.Ensures (.setRx s) K := rfl

@[simp] theorem Call.ensures_expected (K : Option Nat → Link → Trace → Prop) :
    Call.expected.Ensures K R = Action.Ensures (.expected) K := rfl

@[simp] theorem Call.ensures_setExpected (n : Option Nat) (K : Unit → Link → Trace → Prop) :
    (Call.setExpected n).Ensures K R = Action.Ensures (.setExpected n) K := rfl

@[simp] theorem Call.ensures_store (i : Nat) (word : Word) (K : Unit → Link → Trace → Prop) :
    (Call.store i word).Ensures K R = Action.Ensures (.store i word) K := rfl

@[simp] theorem Call.ensures_fetch (n : Nat) (K : List Word → Link → Trace → Prop) :
    (Call.fetch n).Ensures K R = Action.Ensures (.fetch n) K := rfl

@[simp] theorem Call.ensures_nap (us : Nat) (undo : List Action)
    (K : Unit → Link → Trace → Prop) : (Call.nap us undo).Ensures K R =
      Wait.Ensures (Action.EnsuresAll R undo) [.delayed us] (.nap us) K := rfl

@[simp] theorem Call.ensures_completion (d : Direction) (us : Nat)
    (K : Option Report → Link → Trace → Prop) : (Call.completion d us).Ensures K R =
      Wait.Ensures (Action.EnsuresAll R (Action.abandon d)) [.delayed us] (.completion d us) K :=
  rfl

end Rules

section Since
variable {Q Q' : α → Link → Trace → Prop} {R : Link → Trace → Prop} {l : Link} {h ev : Trace}

theorem Action.Ensures.shift {a : Action} {K K' : a.Answer → Link → Trace → Prop}
    (he : a.Ensures K l ev) (hk : ∀ x l ev, K x l ev → K' x l (h ++ ev)) :
    a.Ensures K' l (h ++ ev) := by
  cases a with
  | command c =>
    intro x ms
    rw [List.append_assoc]
    exact hk _ _ _ (he x ms)
  | capacity d =>
    intro n
    rw [List.append_assoc]
    exact hk _ _ _ (he n)
  | _ =>
    have shifted := hk _ _ _ he
    rw [← List.append_assoc] at shifted
    exact shifted

theorem Action.EnsuresAll.shift {as : List Action} {R' : Link → Trace → Prop}
    (he : EnsuresAll R as l ev) (hr : ∀ l ev, R l ev → R' l (h ++ ev)) :
    EnsuresAll R' as l (h ++ ev) := by
  induction as generalizing l ev with
  | nil => exact hr l ev he
  | cons a as ih => exact Action.Ensures.shift he fun _ _ _ => ih

theorem Wait.Ensures.shift {p : Wait} {P P' : Link → Trace → Prop} {began : Trace}
    {K K' : p.Answer → Link → Trace → Prop} (he : p.Ensures P began K l ev)
    (hp : ∀ l ev, P l ev → P' l (h ++ ev)) (hk : ∀ x l ev, K x l ev → K' x l (h ++ ev)) :
    p.Ensures P' began K' l (h ++ ev) := by
  cases p with
  | nap us =>
    intro ms
    simp only [List.append_assoc]
    exact ⟨hp _ _ (by simpa using (he ms).1), hk _ _ _ (by simpa using (he ms).2)⟩
  | completion d us =>
    refine ⟨?_, ?_⟩
    · intro r hr
      rw [List.append_assoc]
      exact hk _ _ _ (he.1 r hr)
    · intro hr ms
      simp only [List.append_assoc]
      exact ⟨hp _ _ (by simpa using (he.2 hr ms).1), hk _ _ _ (by simpa using (he.2 hr ms).2)⟩

/-- What a call ensures of its own trace it ensures after any history. -/
theorem Call.Ensures.since {call : Call α} (he : call.Ensures Q R l ev) (h : Trace) :
    call.Ensures (fun a l h' => ∃ ev, h' = h ++ ev ∧ Q a l ev)
      (fun l h' => ∃ ev, h' = h ++ ev ∧ R l ev) l (h ++ ev) := by
  induction call generalizing l ev with
  | done a => exact ⟨ev, rfl, he⟩
  | act a next ih => exact Action.Ensures.shift he fun x _ _ hx => ih x hx
  | wait p undo next ih =>
    refine Wait.Ensures.shift he ?_ fun x _ _ hx => ih x hx
    intro l ev hu
    exact Action.EnsuresAll.shift hu fun l ev hr => ⟨ev, rfl, hr⟩

/-- A call that goes on after `ev`, by what it ensures of its own trace. -/
theorem Call.Ensures.from {call : Call α} (he : call.Ensures Q (fun _ _ => True) l []) (ev : Trace)
    (next : ∀ a l more, Q a l more → Q' a l (ev ++ more)) :
    call.Ensures Q' (fun _ _ => True) l ev := by
  have since := he.since ev
  rw [List.append_nil] at since
  refine since.mono ?_ fun _ _ _ => trivial
  rintro a l _ ⟨more, rfl, hq⟩
  exact next a l more hq

end Since

section Soundness
variable {Q : α → Link → Trace → Prop} {R P : Link → Trace → Prop} {h : Trace} {w : World σ}
  (H : Hardware σ)

theorem Action.Ensures.perform {a : Action} {K : a.Answer → Link → Trace → Prop}
    (he : a.Ensures K w.link h) :
    K (H.perform w a).value (H.perform w a).world.link (h ++ (H.perform w a).trace) := by
  cases a with
  | command c => exact he _ _
  | capacity d => exact he _
  | _ => exact he

theorem Action.EnsuresAll.performAll {as : List Action} (he : EnsuresAll R as w.link h) :
    R (H.performAll w as).world.link (h ++ (H.performAll w as).trace) := by
  induction as generalizing w h with
  | nil => simpa [Hardware.performAll, EnsuresAll] using he
  | cons a as ih =>
    have hn := ih (Action.Ensures.perform H he)
    simpa [Hardware.performAll, Outcome.after] using hn

theorem World.lookAtCell_eq (w : World σ) (d : Direction) :
    w.lookAtCell d = ⟨(w.link.status d).report?, w.update fun l => (l.leaveWaker d).take d,
      consumption d (w.link.status d).report?⟩ := by
  cases d <;> rfl

/-- A look at a delay that leaves `began` and then reports in the trace. -/
def Looks (began : Trace) (delay : World σ → Outcome σ Bool) : Prop :=
  ∀ w, ∃ ms, (delay w).world.link = w.link.markAll ms ∧
    (delay w).trace = began ++ w.link.markTrace ms

theorem looks_lookAtDelay : Looks [] H.lookAtDelay := by
  intro w
  exact ⟨_, rfl, rfl⟩

theorem looks_beginDelay (us : Nat) : Looks [.delayed us] (H.beginDelay us) := by
  intro w
  exact ⟨_, rfl, rfl⟩

/-- After a look a wait has ended with `K`, or it goes on and its delay has begun. -/
def Wait.Looked (P : Link → Trace → Prop) (p : Wait) (K : p.Answer → Link → Trace → Prop)
    (h : Trace) (o : Outcome σ (Option p.Answer)) : Prop :=
  match o.value with
  | some x => K x o.world.link (h ++ o.trace)
  | none => P o.world.link (h ++ o.trace) ∧ p.Ensures P [] K o.world.link (h ++ o.trace)

theorem Wait.Ensures.pollNap {us : Nat} {K : Unit → Link → Trace → Prop} {began : Trace}
    {delay : World σ → Outcome σ Bool} (hd : Looks began delay)
    (he : Wait.Ensures P began (.nap us) K w.link h) :
    Wait.Looked P (.nap us) K h (w.pollNap delay) := by
  obtain ⟨ms, hl, ht⟩ := hd w
  cases hv : (delay w).value with
  | true =>
    simp only [Wait.Looked, World.pollNap, Outcome.map, hv, if_true, hl, ht, ← List.append_assoc]
    exact (he ms).2
  | false =>
    simp only [Wait.Looked, World.pollNap, Outcome.map, hv, hl, ht, ← List.append_assoc]
    refine ⟨(he ms).1, ?_⟩
    intro ns
    simpa [Link.markAll_append, Link.markTrace_append] using he (ms ++ ns)

theorem Wait.Ensures.pollCompletion {d : Direction} {us : Nat}
    {K : Option Report → Link → Trace → Prop} {began : Trace}
    {delay : World σ → Outcome σ Bool} (hd : Looks began delay)
    (he : Wait.Ensures P began (.completion d us) K w.link h) :
    Wait.Looked P (.completion d us) K h (w.pollCompletion d delay) := by
  cases hr : (w.link.status d).report? with
  | some r =>
    have hk := he.1 r hr
    simpa [Wait.Looked, World.pollCompletion, World.lookAtCell_eq, hr, consumption, Outcome.map,
      World.update] using hk
  | none =>
    have hl0 : (w.link.leaveWaker d).take d = w.link.leaveWaker d :=
      Link.take_eq_self (by rw [Link.status_leaveWaker, hr])
    obtain ⟨ms, hl, ht⟩ := hd ⟨w.link.leaveWaker d, w.hardware⟩
    have hm : (w.link.leaveWaker d).markTrace ms = w.link.markTrace ms :=
      Link.markTrace_congr (Link.status_leaveWaker w.link d) ms
    have hn := he.2 hr
    cases hv : (delay ⟨w.link.leaveWaker d, w.hardware⟩).value with
    | true =>
      simp only [Wait.Looked, World.pollCompletion, World.lookAtCell_eq, hr, consumption,
        World.update, hl0, Outcome.after, hv, if_true, World.consume, Outcome.map, hl, ht, hm,
        List.nil_append, ← List.append_assoc]
      exact (hn ms).2
    | false =>
      simp only [Wait.Looked, World.pollCompletion, World.lookAtCell_eq, hr, consumption,
        World.update, hl0, Outcome.after, hv, Bool.false_eq_true, if_false, Outcome.map, hl, ht, hm,
        List.nil_append, ← List.append_assoc]
      refine ⟨(hn ms).1, ?_, ?_⟩
      · intro r hr'
        have hk := (hn ms).2
        rw [hr'] at hk
        rwa [Link.leaveWaker_markAll, Link.leaveWaker_leaveWaker]
      · intro _ ns
        have hk := hn (ms ++ ns)
        rw [Link.markAll_append, Link.markTrace_append, ← List.append_assoc] at hk
        have hc : ((w.link.leaveWaker d).markAll ms).markTrace ns =
            (w.link.markAll ms).markTrace ns := by
          rw [← Link.leaveWaker_markAll]
          exact Link.markTrace_congr (Link.status_leaveWaker _ d) ns
        rwa [Link.leaveWaker_markAll, Link.leaveWaker_leaveWaker, hc, List.append_nil]

theorem Wait.Ensures.enter {p : Wait} {K : p.Answer → Link → Trace → Prop}
    (he : p.Ensures P p.beginning K w.link h) : p.Looked P K h (H.enter w p) := by
  cases p with
  | nap us => exact Wait.Ensures.pollNap (looks_beginDelay H us) he
  | completion d us => exact Wait.Ensures.pollCompletion (looks_beginDelay H us) he

theorem Wait.Ensures.revisit {p : Wait} {K : p.Answer → Link → Trace → Prop}
    (he : p.Ensures P [] K w.link h) : p.Looked P K h (H.revisit w p) := by
  cases p with
  | nap us => exact Wait.Ensures.pollNap (looks_lookAtDelay H) he
  | completion d us => exact Wait.Ensures.pollCompletion (looks_lookAtDelay H) he

/-- One poll brings a call to its end, or to a wait from which it still keeps its promise. -/
theorem Call.Ensures.advance {c : Call α} (he : c.Ensures Q R w.link h) :
    match (c.advance H w).value with
    | .finished a => Q a (c.advance H w).world.link (h ++ (c.advance H w).trace)
    | .paused p => p.Ensures Q R (c.advance H w).world.link (h ++ (c.advance H w).trace) := by
  induction c generalizing w h with
  | done a => simpa [Call.advance] using he
  | act a next ih =>
    have hn := ih _ (Action.Ensures.perform H he)
    simpa [Call.advance, Outcome.after] using hn
  | wait p undo next ih =>
    have hw := Wait.Ensures.enter H he
    unfold Wait.Looked at hw
    cases hv : (H.enter w p).value with
    | some x =>
      rw [hv] at hw
      have hn := ih x hw
      simpa [Call.advance, hv, Outcome.after] using hn
    | none =>
      rw [hv] at hw
      simpa [Call.advance, hv, Outcome.map, Pause.Ensures] using hw

/-- A call that is never found at a wait ends with its first poll. -/
theorem Call.Ensures.finishes {c : Call α} (he : c.Ensures Q (fun _ _ => False) w.link h) :
    ∃ a, (c.advance H w).value = .finished a ∧
      Q a (c.advance H w).world.link (h ++ (c.advance H w).trace) := by
  have ha := Call.Ensures.advance H he
  cases hv : (c.advance H w).value with
  | finished a =>
    rw [hv] at ha
    exact ⟨a, rfl, ha⟩
  | paused p =>
    rw [hv] at ha
    exact (Action.EnsuresAll.performAll H ha.1).elim

theorem Pause.Ensures.poll {p : Pause α} (he : p.Ensures Q R w.link h) :
    match (p.poll H w).value with
    | .finished a => Q a (p.poll H w).world.link (h ++ (p.poll H w).trace)
    | .paused q => q.Ensures Q R (p.poll H w).world.link (h ++ (p.poll H w).trace) := by
  have hw := Wait.Ensures.revisit H he.2
  unfold Wait.Looked at hw
  cases hv : (H.revisit w p.wait).value with
  | some x =>
    rw [hv] at hw
    have hn := Call.Ensures.advance H hw
    simpa [Pause.poll, hv, Outcome.after] using hn
  | none =>
    rw [hv] at hw
    simpa [Pause.poll, hv, Outcome.map, Pause.Ensures] using hw

theorem Pause.Ensures.drive {p : Pause α} (he : p.Ensures Q R w.link h) (polls : Nat) :
    (p.drive H polls w).Meets Q R h := by
  induction polls generalizing p w h with
  | zero =>
    have hd := Action.EnsuresAll.performAll H he.1
    simpa [Pause.drive, Pause.drop, Outcome.Meets, Outcome.map] using hd
  | succ polls ih =>
    have hp := Pause.Ensures.poll H he
    cases hv : (p.poll H w).value with
    | finished a =>
      rw [hv] at hp
      simpa [Pause.drive, hv, Outcome.Meets, Outcome.map] using hp
    | paused q =>
      rw [hv] at hp
      have hq := ih hp
      simpa [Pause.drive, hv, Outcome.Meets, Outcome.after] using hq

/-- A call that is polled keeps its promise, after however many polls it is dropped. -/
theorem Call.Ensures.drive {c : Call α} (he : c.Ensures Q R w.link h) (polls : Nat) :
    (c.drive H w (polls + 1)).Meets Q R h := by
  have ha := Call.Ensures.advance H he
  cases hv : (c.advance H w).value with
  | finished a =>
    rw [hv] at ha
    simpa [Call.drive, hv, Outcome.Meets, Outcome.map] using ha
  | paused p =>
    rw [hv] at ha
    have hp := Pause.Ensures.drive H ha polls
    simpa [Call.drive, hv, Outcome.Meets, Outcome.after] using hp

/-- A call that ends by itself ends with `Q`. -/
theorem Call.Ensures.finished {c : Call α} (he : c.Ensures Q R w.link h) {polls left : Nat} {a : α}
    (hv : (c.drive H w polls).value = .finished a left) :
    Q a (c.drive H w polls).world.link (h ++ (c.drive H w polls).trace) := by
  cases polls with
  | zero => simp [Call.drive] at hv
  | succ polls =>
    have hm := Call.Ensures.drive H he polls
    rwa [Outcome.Meets, hv] at hm

/-- A call that was polled and is dropped ends with `R`. -/
theorem Call.Ensures.dropped {c : Call α} (he : c.Ensures Q R w.link h) {polls : Nat}
    (hv : (c.drive H w (polls + 1)).value = .dropped) :
    R (c.drive H w (polls + 1)).world.link (h ++ (c.drive H w (polls + 1)).trace) := by
  have hm := Call.Ensures.drive H he polls
  rwa [Outcome.Meets, hv] at hm

/-- What a call keeps holds after any number of polls, whether it has ended or is dropped. -/
theorem Call.Ensures.keeps {c : Call α} {P : Link → Trace → Prop}
    (he : c.Ensures (fun _ => P) P w.link h) (hp : P w.link h) (polls : Nat) :
    P (c.drive H w polls).world.link (h ++ (c.drive H w polls).trace) := by
  cases polls with
  | zero => simpa [Call.drive] using hp
  | succ polls =>
    have hm := Call.Ensures.drive H he polls
    unfold Outcome.Meets at hm
    split at hm <;> exact hm

/-- A call that is never found at a wait ends at once when it is driven. -/
theorem Call.Ensures.at_once {c : Call α} (he : c.Ensures Q (fun _ _ => False) w.link h)
    (polls : Nat) : ∃ a, (c.drive H w (polls + 1)).value = .finished a (polls + 1) ∧
      Q a (c.drive H w (polls + 1)).world.link (h ++ (c.drive H w (polls + 1)).trace) := by
  obtain ⟨a, hv, hq⟩ := Call.Ensures.finishes H he
  refine ⟨a, ?_, ?_⟩
  · simp [Call.drive, hv, Outcome.map]
  · simpa [Call.drive, hv, Outcome.map] using hq

end Soundness

end Joybus.Transceiver
