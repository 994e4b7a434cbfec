import Joybus.Bench.Hardware
import Joybus.Proofs.Ensures

/-! Calls end: over hardware whose delays end every call returns, and with what it ensures. -/
namespace Joybus.Transceiver

variable {σ α : Type} {H : Hardware σ} {w : World σ}

/-- The delay begun last is over after finitely many looks. -/
inductive Hardware.DelayEnds (H : Hardware σ) : σ → Prop
  | now {s : σ} : (H.pollDelay s).answer = true → H.DelayEnds s
  | later {s : σ} : H.DelayEnds (H.pollDelay s).state → H.DelayEnds s

/-- Every delay ends. -/
def Hardware.Timely (H : Hardware σ) : Prop := ∀ us s, H.DelayEnds (H.startDelay us s)

/-- Polled often enough the call ends by itself, with this outcome. -/
def Call.Returns (H : Hardware σ) (call : Call α) (w : World σ) (o : Outcome σ α) : Prop :=
  ∃ n, ∀ polls, n ≤ polls → ∃ left, call.drive H w polls = o.map (.finished · left)

@[inherit_doc Call.Returns]
def Pause.Returns (H : Hardware σ) (p : Pause α) (w : World σ) (o : Outcome σ α) : Prop :=
  ∃ n, ∀ polls, n ≤ polls → ∃ left, p.drive H polls w = o.map (.finished · left)

theorem Hardware.DelayEnds.of_false {s : σ} (hd : H.DelayEnds s)
    (ha : (H.pollDelay s).answer = false) : H.DelayEnds (H.pollDelay s).state := by
  cases hd with
  | now ht => simp [ha] at ht
  | later hd => exact hd

section Polls
variable {d : Direction} {delay : World σ → Outcome σ Bool}

theorem World.pollNap_none (hv : (w.pollNap delay).value = none) :
    (delay w).value = false ∧ (w.pollNap delay).world = (delay w).world := by
  cases ha : (delay w).value with
  | true => simp [pollNap, Outcome.map, ha] at hv
  | false => exact ⟨rfl, rfl⟩

theorem World.pollCompletion_none (hv : (w.pollCompletion d delay).value = none) :
    ∃ w' : World σ, w'.hardware = w.hardware ∧ (delay w').value = false ∧
      (w.pollCompletion d delay).world = (delay w').world := by
  refine ⟨(w.lookAtCell d).world, rfl, ?_⟩
  cases hs : (w.lookAtCell d).value with
  | some r => simp [pollCompletion, hs, Outcome.map] at hv
  | none =>
    cases ha : (delay (w.lookAtCell d).world).value with
    | true => simp [pollCompletion, hs, Outcome.map, Outcome.after, ha] at hv
    | false => simp [pollCompletion, hs, Outcome.map, Outcome.after, ha]

/-- A wait goes on after a first look only if its delay does. -/
theorem Hardware.enter_none {p : Wait} (hv : (H.enter w p).value = none) (ht : H.Timely) :
    H.DelayEnds (H.enter w p).world.hardware := by
  cases p with
  | nap us =>
    obtain ⟨ha, hw⟩ := World.pollNap_none hv
    simp only [enter, hw]
    exact (ht us w.hardware).of_false ha
  | completion d us =>
    obtain ⟨w', hh, ha, hw⟩ := World.pollCompletion_none hv
    simp only [enter, hw]
    exact (ht us w'.hardware).of_false ha

theorem Hardware.revisit_none {p : Wait} (hv : (H.revisit w p).value = none) :
    (H.pollDelay w.hardware).answer = false ∧
      (H.revisit w p).world.hardware = (H.pollDelay w.hardware).state := by
  cases p with
  | nap us =>
    obtain ⟨ha, hw⟩ := World.pollNap_none hv
    exact ⟨ha, congrArg World.hardware hw⟩
  | completion d us =>
    obtain ⟨w', hh, ha, hw⟩ := World.pollCompletion_none hv
    rw [← hh]
    exact ⟨ha, congrArg World.hardware hw⟩

end Polls

section Drives
variable {p : Wait} {undo : List Action} {next : p.Answer → Call α} {x : p.Answer}

theorem Call.drive_act {a : Action} {next : a.Answer → Call α} (polls : Nat) :
    (Call.act a next).drive H w (polls + 1) =
      ((next (H.perform w a).value).drive H (H.perform w a).world (polls + 1)).after
        (H.perform w a).trace := by
  simp only [Call.drive, Call.advance, Outcome.after]
  split <;> simp_all [Outcome.map]

theorem Call.drive_wait_some (hv : (H.enter w p).value = some x) (polls : Nat) :
    (Call.wait p undo next).drive H w (polls + 1) =
      ((next x).drive H (H.enter w p).world (polls + 1)).after (H.enter w p).trace := by
  simp only [Call.drive, Call.advance, hv, Outcome.after]
  split <;> simp_all [Outcome.map]

theorem Call.drive_wait_none (hv : (H.enter w p).value = none) (polls : Nat) :
    (Call.wait p undo next).drive H w (polls + 1) =
      (Pause.drive H polls ⟨p, undo, next⟩ (H.enter w p).world).after (H.enter w p).trace := by
  simp [Call.drive, Call.advance, hv, Outcome.map]

theorem Pause.drive_some {p : Pause α} {x : p.wait.Answer}
    (hv : (H.revisit w p.wait).value = some x) (polls : Nat) :
    p.drive H (polls + 1) w =
      ((p.next x).drive H (H.revisit w p.wait).world (polls + 1)).after
        (H.revisit w p.wait).trace := by
  simp only [Pause.drive, Pause.poll, Call.drive, hv, Outcome.after]
  split <;> simp_all [Outcome.map]

theorem Pause.drive_none {p : Pause α} (hv : (H.revisit w p.wait).value = none) (polls : Nat) :
    p.drive H (polls + 1) w =
      (p.drive H polls (H.revisit w p.wait).world).after (H.revisit w p.wait).trace := by
  simp [Pause.drive, Pause.poll, hv, Outcome.map]

end Drives

/-- A step before work that returns. -/
theorem returns_after {drive drive' : Nat → Outcome σ (Ending α)} {o : Outcome σ α} {tr : Trace}
    {k : Nat} (hd : ∀ polls, drive (polls + 1) = (drive' (polls + k)).after tr)
    (hr : ∃ n, ∀ polls, n ≤ polls → ∃ left, drive' polls = o.map (.finished · left)) :
    ∃ n, ∀ polls, n ≤ polls → ∃ left, drive polls = (o.after tr).map (.finished · left) := by
  obtain ⟨n, hn⟩ := hr
  refine ⟨n + 1, ?_⟩
  intro polls hp
  obtain ⟨more, rfl⟩ := Nat.exists_eq_add_of_le' hp
  obtain ⟨left, hl⟩ := hn (more + n + k) (by omega)
  refine ⟨left, ?_⟩
  rw [← Nat.add_assoc, hd, hl]
  rfl

theorem Pause.returns {p : Pause α} (next : ∀ x w, ∃ o, (p.next x).Returns H w o)
    (hd : H.DelayEnds w.hardware) : ∃ o, p.Returns H w o := by
  generalize hs : w.hardware = s at hd
  induction hd generalizing w with
  | now ha =>
    cases hv : (H.revisit w p.wait).value with
    | some x =>
      obtain ⟨o, ho⟩ := next x (H.revisit w p.wait).world
      exact ⟨_, returns_after (Pause.drive_some hv) ho⟩
    | none =>
      have hn := (Hardware.revisit_none hv).1
      simp [hs, ha] at hn
  | later _ ih =>
    cases hv : (H.revisit w p.wait).value with
    | some x =>
      obtain ⟨o, ho⟩ := next x (H.revisit w p.wait).world
      exact ⟨_, returns_after (Pause.drive_some hv) ho⟩
    | none =>
      have hh := (Hardware.revisit_none hv).2
      rw [hs] at hh
      obtain ⟨o, ho⟩ := ih hh
      exact ⟨_, returns_after (k := 0) (Pause.drive_none hv) ho⟩

/-- Every call returns if every delay ends. -/
theorem Hardware.Timely.returns (ht : H.Timely) (call : Call α) (w : World σ) :
    ∃ o, call.Returns H w o := by
  induction call generalizing w with
  | done a =>
    refine ⟨⟨a, w, []⟩, 1, ?_⟩
    intro polls hp
    obtain ⟨polls, rfl⟩ := Nat.exists_eq_add_of_le' hp
    exact ⟨polls + 1, rfl⟩
  | act a next ih =>
    obtain ⟨o, ho⟩ := ih (H.perform w a).value (H.perform w a).world
    exact ⟨_, returns_after Call.drive_act ho⟩
  | wait p undo next ih =>
    cases hv : (H.enter w p).value with
    | some x =>
      obtain ⟨o, ho⟩ := ih x (H.enter w p).world
      exact ⟨_, returns_after (Call.drive_wait_some hv) ho⟩
    | none =>
      obtain ⟨o, ho⟩ := Pause.returns (p := ⟨p, undo, next⟩) ih (Hardware.enter_none hv ht)
      exact ⟨_, returns_after (k := 0) (Call.drive_wait_none hv) ho⟩

/-- A call that returns keeps its promise. -/
theorem Call.Returns.ensured {call : Call α} {o : Outcome σ α} {h : Trace}
    {Q : α → Link → Trace → Prop} {R : Link → Trace → Prop} (hr : call.Returns H w o)
    (he : call.Ensures Q R w.link h) : Q o.value o.world.link (h ++ o.trace) := by
  obtain ⟨n, hn⟩ := hr
  obtain ⟨left, hl⟩ := hn (n + 1) (by omega)
  have hm := Call.Ensures.drive H he n
  rw [hl] at hm
  exact hm

def Progress.ended : Progress α → Bool
  | finished _ => true
  | paused _ => false

/-- A call that its first poll ends returns with what that poll did. -/
theorem Call.Returns.trace_eq {call : Call α} {o : Outcome σ α} (hr : call.Returns H w o)
    (he : (call.advance H w).value.ended) : o.trace = (call.advance H w).trace := by
  obtain ⟨n, hn⟩ := hr
  obtain ⟨left, hl⟩ := hn (n + 1) (by omega)
  cases ha : (call.advance H w).value with
  | paused p => simp [ha, Progress.ended] at he
  | finished a =>
    simp only [Call.drive, ha] at hl
    exact (congrArg Outcome.trace hl).symm

/-- Scripted hardware whose delays are over at once. -/
def prompt : Hardware Bench.Script :=
  { Bench.bench with startDelay := fun _ s => { s with delay := [] } }

theorem prompt_timely : prompt.Timely := fun _ _ => .now rfl

end Joybus.Transceiver
