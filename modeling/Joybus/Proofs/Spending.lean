import Joybus.Proofs.Answers
import Joybus.Proofs.Endings

/-! What calls ask of their delay: the cost of a call adds up from its waits, and a loop that polls
costs no more than the sleeps it has left. -/
namespace Joybus.Transceiver

variable {σ α β : Type} {W : Wait → Prop} {c : LinkConfig} {l : Link} {h : Trace}

/-- The microseconds that a wait asks of the delay. -/
def Wait.us : Wait → Nat
  | .nap us | .completion _ us => us

/-- What an event asks of the delay. -/
def Event.asked : Event → Nat
  | .delayed us => us
  | .acted _ _ | .marked _ _ | .consumed _ => 0

namespace Trace

/-- All that was asked of the delay. -/
def slept : Trace → Nat
  | [] => 0
  | e :: h => e.asked + slept h

/-- At most `n` microseconds were asked of the delay in all, and each time for a wait in `W`. -/
structure Asks (W : Wait → Prop) (n : Nat) (h : Trace) : Prop where
  total : h.slept ≤ n
  each : ∀ us, .delayed us ∈ h → ∃ p : Wait, W p ∧ p.us = us

/-- Nothing was asked of the delay. -/
def Sleepless (h : Trace) : Prop := ∀ us, .delayed us ∉ h

@[simp] theorem slept_nil : slept [] = 0 := rfl

@[simp] theorem slept_cons (e : Event) (h : Trace) : slept (e :: h) = e.asked + h.slept := rfl

@[simp] theorem slept_append (h ev : Trace) : slept (h ++ ev) = h.slept + ev.slept := by
  induction h with
  | nil => simp
  | cons e h ih => simp [ih, Nat.add_assoc]

theorem Sleepless.slept_eq {ev : Trace} (hv : ev.Sleepless) : ev.slept = 0 := by
  induction ev with
  | nil => rfl
  | cons e ev ih =>
    have rest := ih fun us hu => hv us (List.mem_cons_of_mem e hu)
    cases e with
    | delayed us => exact (hv us List.mem_cons_self).elim
    | _ => simpa [Event.asked] using rest

theorem sleepless_markTrace (l : Link) (ms : List Mark) : Sleepless (l.markTrace ms) := by
  intro us hu
  obtain ⟨m, s, he⟩ := Link.mem_markTrace hu
  cases he

@[simp] theorem slept_markTrace (l : Link) (ms : List Mark) : slept (l.markTrace ms) = 0 :=
  (sleepless_markTrace l ms).slept_eq

theorem Asks.append {n : Nat} {ev : Trace} (ha : h.Asks W n) (hv : ev.Sleepless) :
    Asks W n (h ++ ev) := by
  refine ⟨?_, ?_⟩
  · have total := ha.total
    rw [slept_append, hv.slept_eq]
    exact total
  · intro us hu
    rcases List.mem_append.1 hu with hu | hu
    · exact ha.each us hu
    · exact (hv us hu).elim

theorem Asks.delay {n : Nat} {p : Wait} (ha : h.Asks W n) (hp : W p) :
    Asks W (n + p.us) (h ++ [.delayed p.us]) := by
  refine ⟨?_, ?_⟩
  · have total := ha.total
    simp only [slept_append, slept_cons, slept_nil, Event.asked]
    omega
  · intro us hu
    rcases List.mem_append.1 hu with hu | hu
    · exact ha.each us hu
    · cases List.mem_singleton.1 hu
      exact ⟨p, hp, rfl⟩

theorem Asks.weaken {n m : Nat} (ha : h.Asks W n) (hn : n ≤ m) : h.Asks W m :=
  ⟨Nat.le_trans ha.total hn, ha.each⟩

end Trace

/-- With `n` microseconds to spend the call never asks for more, all its waits are in `W`, and it
ends with `K` of its answer and what is left. -/
def Call.Affords (W : Wait → Prop) (K : α → Nat → Prop) : Call α → Nat → Prop
  | .done a, n => K a n
  | .act _ next, n => ∀ x, (next x).Affords W K n
  | .wait p _ next, n => W p ∧ p.us ≤ n ∧ ∀ x, (next x).Affords W K (n - p.us)

namespace Call
variable {K K' : α → Nat → Prop} {n m : Nat}

@[simp] theorem affords_bind {K : β → Nat → Prop} (call : Call α) (f : α → Call β) (n : Nat) :
    (call >>= f).Affords W K n = call.Affords W (fun a => (f a).Affords W K) n := by
  induction call generalizing n with
  | done a => rfl
  | act a next ih => simp only [bind_act, Affords, ih]
  | wait p undo next ih => simp only [bind_wait, Affords, ih]

@[simp] theorem affords_map {K : β → Nat → Prop} (call : Call α) (f : α → β) (n : Nat) :
    (f <$> call).Affords W K n = call.Affords W (fun a => K (f a)) n :=
  affords_bind call (fun a => .done (f a)) n

/-- Who has more to spend has more left. -/
theorem Affords.mono {call : Call α} (hc : call.Affords W K n) (hn : n ≤ m)
    (hk : ∀ a i j, i ≤ j → K a i → K' a j) : call.Affords W K' m := by
  induction call generalizing n m with
  | done a => exact hk a n m hn hc
  | act a next ih =>
    intro x
    exact ih x (hc x) hn
  | wait p undo next ih =>
    obtain ⟨hw, hu, hx⟩ := hc
    refine ⟨hw, by omega, ?_⟩
    intro x
    exact ih x (hx x) (by omega)

theorem Affords.uses {call : Call α} (hc : call.Affords W K n) :
    call.Uses (fun _ => True) fun p _ => W p := by
  induction call generalizing n with
  | done a => trivial
  | act a next ih => exact ⟨trivial, fun x => ih x (hc x)⟩
  | wait p undo next ih => exact ⟨hc.1, fun x => ih x (hc.2.2 x)⟩

/-- The call costs at most `n` microseconds, whatever there is to spend besides. -/
def Costs (W : Wait → Prop) (call : Call α) (n : Nat) : Prop :=
  ∀ spare, call.Affords W (fun _ left => spare ≤ left) (n + spare)

theorem Costs.weaken {call : Call α} (hc : call.Costs W n) (hn : n ≤ m) : call.Costs W m := by
  intro spare
  refine (hc spare).mono (by omega) ?_
  intro _ i j hij hs
  exact Nat.le_trans hs hij

theorem Costs.affords {call : Call α} (hc : call.Costs W n) :
    call.Affords W (fun _ _ => True) n :=
  (hc 0).mono (Nat.le_refl n) fun _ _ _ _ _ => trivial

theorem costs_pure (a : α) : (pure a : Call α).Costs W n := by
  intro spare
  exact Nat.le_add_left spare n

/-- Costs add up. -/
theorem Costs.bind {call : Call α} {f : α → Call β} (hc : call.Costs W n)
    (hf : ∀ a, (f a).Costs W m) : (call >>= f).Costs W (n + m) := by
  intro spare
  have first := hc (m + spare)
  rw [← Nat.add_assoc] at first
  rw [affords_bind]
  refine first.mono (Nat.le_refl _) ?_
  intro a i j hij hs
  refine (hf a spare).mono (Nat.le_trans hs hij) ?_
  intro _ i j hij hs
  exact Nat.le_trans hs hij

theorem Costs.map {call : Call α} (hc : call.Costs W n) (f : α → β) :
    (f <$> call).Costs W n := by
  intro spare
  rw [affords_map]
  exact hc spare

/-- What is done at once is free. -/
theorem costs_then {a : Action} {f : a.Answer → Call β} (hf : ∀ x, (f x).Costs W n) :
    (perform a >>= f).Costs W n := by
  intro spare x
  exact hf x spare

theorem costs_performAll {as : List Action} {f : Unit → Call β} (hf : (f ()).Costs W n) :
    (performAll as >>= f).Costs W n := by
  induction as with
  | nil => exact hf
  | cons a as ih =>
    intro spare x
    exact ih spare

theorem costs_completion {d : Direction} {us : Nat} {f : Option Completion.Report → Call β}
    (hw : W (.completion d us)) (hf : ∀ r, (f r).Costs W n) :
    (completion d us >>= f).Costs W (us + n) := by
  intro spare
  refine ⟨hw, by simp only [Wait.us]; omega, ?_⟩
  intro r
  refine (hf r spare).mono (by simp only [Wait.us]; omega) ?_
  intro _ i j hij hs
  exact Nat.le_trans hs hij

end Call

section Asking
variable {K : α → Nat → Prop} {m n : Nat}

open Trace

theorem Action.ensures_sleepless {a : Action} {K : a.Answer → Link → Trace → Prop}
    (next : ∀ x l ev, Sleepless ev → K x l (h ++ ev)) : a.Ensures K l h := by
  have sleepless : ∀ (x : a.Answer) (l : Link) (ms : List Mark),
      Sleepless (.acted a x :: l.markTrace ms) := by
    intro x l ms us hu
    rcases List.mem_cons.1 hu with hu | hu
    · cases hu
    · exact sleepless_markTrace l ms us hu
  cases a with
  | command c =>
    intro x ms
    exact next x _ _ (sleepless x l ms)
  | capacity d =>
    intro x
    exact next x _ _ (sleepless x l [])
  | _ => exact next _ _ _ (sleepless _ l [])

theorem Action.ensuresAll_asks {as : List Action} (ha : h.Asks W n) :
    Action.EnsuresAll (fun _ h => h.Asks W n) as l h := by
  induction as generalizing l h with
  | nil => exact ha
  | cons a as ih =>
    refine Action.ensures_sleepless ?_
    intro _ l ev hv
    exact ih (ha.append hv)

/-- A wait asks the delay for its time once at most, and not at all if its report is there. -/
theorem Wait.ensures_asks {p : Wait} {K : p.Answer → Link → Trace → Prop}
    {R : Link → Trace → Prop} (hp : W p) (ha : h.Asks W n)
    (cut : ∀ l h', Asks W (n + p.us) h' → R l h')
    (next : ∀ x l h', Asks W (n + p.us) h' → K x l h') :
    p.Ensures R p.beginning K l h := by
  cases p with
  | nap us =>
    intro ms
    have asked := (ha.delay hp).append (sleepless_markTrace l ms)
    exact ⟨cut _ _ asked, next _ _ _ asked⟩
  | completion d us =>
    refine ⟨?_, ?_⟩
    · intro r _
      have unasked : Sleepless [.consumed ⟨d, r⟩] := by simp [Sleepless]
      exact next _ _ _ ((ha.append unasked).weaken (Nat.le_add_right n _))
    · intro _ ms
      have asked := (ha.delay hp).append (sleepless_markTrace l ms)
      refine ⟨cut _ _ asked, next _ _ _ (asked.append ?_)⟩
      intro us hu
      cases hr : (((l.leaveWaker d).markAll ms).status d).report? <;> simp [hr, consumption] at hu

/-- A call asks no more of the delay than it affords, whether it ends or is dropped. -/
theorem Call.Affords.ensures {call : Call α} (hc : call.Affords W K n) (ha : h.Asks W m) :
    call.Ensures (fun _ _ h => h.Asks W (m + n)) (fun _ h => h.Asks W (m + n)) l h := by
  induction call generalizing l h m n with
  | done a => exact ha.weaken (Nat.le_add_right m n)
  | act a next ih =>
    refine Action.ensures_sleepless ?_
    intro x l ev hv
    exact ih x (hc x) (ha.append hv)
  | wait p undo next ih =>
    obtain ⟨hp, hu, hx⟩ := hc
    have rest : m + p.us + (n - p.us) = m + n := by omega
    refine Wait.ensures_asks hp ha ?_ ?_
    · intro l h hs
      exact Action.ensuresAll_asks (hs.weaken (by omega))
    · intro x l h hs
      have asked := ih x (l := l) (hx x) hs
      rw [rest] at asked
      exact asked

end Asking

section Loops
variable {b : Budget}

/-- A sleep in a loop, with the rest of the loop paid out of what is left of the budget. -/
theorem nap_affords {K : α → Nat → Prop} {f : Unit → Call α} {undo : List Action} {spare : Nat}
    (hw : W (.nap b.sleep)) (hf : (f ()).Affords W K (b.rest.remaining + spare)) :
    (Call.nap b.sleep undo >>= f).Affords W K (b.remaining + spare) := by
  have paid := b.sleep_add_rest
  have rest : b.remaining + spare - b.sleep = b.rest.remaining + spare := by omega
  refine ⟨hw, by rw [Wait.us]; omega, ?_⟩
  intro _
  rw [Wait.us, rest]
  exact hf

theorem awaitBusTurn_costs (hw : ∀ us, 1 ≤ us → us ≤ b.step → W (.nap us)) :
    (awaitBusTurn b).Costs W b.remaining := by
  induction b with
  | spent b spent =>
    intro spare
    rw [awaitBusTurn, if_pos spent]
    intro seen
    cases seen <;> exact Nat.le_add_left spare _
  | sleep b unspent ih =>
    intro spare
    rw [awaitBusTurn, if_neg unspent]
    intro seen
    cases seen with
    | true => exact Nat.le_add_left spare _
    | false => exact nap_affords (hw _ (Budget.sleep_pos unspent) b.sleep_le) (ih hw spare)

/-- Offering a word costs what is not left of the budget in the end. -/
theorem pushWithin_affords (d : Direction) (word : Word) (undo : List Action) (spare : Nat)
    (hw : ∀ us, 1 ≤ us → us ≤ b.step → W (.nap us)) :
    (pushWithin d word undo b).Affords W
      (fun r m => match r with
        | some left => left.step = b.step ∧ left.remaining + spare ≤ m
        | none => spare ≤ m)
      (b.remaining + spare) := by
  induction b with
  | spent b spent =>
    rw [pushWithin, if_pos spent]
    intro taken
    cases taken with
    | true => exact ⟨rfl, Nat.le_refl _⟩
    | false => exact Nat.le_add_left spare _
  | sleep b unspent ih =>
    rw [pushWithin, if_neg unspent]
    intro taken
    cases taken with
    | true => exact ⟨rfl, Nat.le_refl _⟩
    | false => exact nap_affords (hw _ (Budget.sleep_pos unspent) b.sleep_le) (ih hw)

/-- All words are fed under one budget. -/
theorem feed_costs (words : List Word) (hw : ∀ us, 1 ≤ us → us ≤ b.step → W (.nap us)) :
    (feed words b).Costs W b.remaining := by
  intro spare
  induction words generalizing b with
  | nil => exact Nat.le_add_left spare _
  | cons word words ih =>
    rw [feed, Call.affords_bind]
    refine (pushWithin_affords .tx word _ spare hw).mono (Nat.le_refl _) ?_
    intro r i j hij hr
    cases r with
    | none => exact Nat.le_trans hr hij
    | some left =>
      obtain ⟨step, left_over⟩ := hr
      refine (ih (b := left) (by rwa [step])).mono (Nat.le_trans left_over hij) ?_
      intro _ i j hij hs
      exact Nat.le_trans hs hij

theorem pullWithin_affords (spare : Nat) (hw : ∀ us, 1 ≤ us → us ≤ b.step → W (.nap us)) :
    (pullWithin b).Affords W
      (fun r m => match r with
        | some (_, left) => left.step = b.step ∧ left.remaining + spare ≤ m
        | none => spare ≤ m)
      (b.remaining + spare) := by
  induction b with
  | spent b spent =>
    rw [pullWithin, if_pos spent]
    intro found
    cases found with
    | some word => exact ⟨rfl, Nat.le_refl _⟩
    | none => exact Nat.le_add_left spare _
  | sleep b unspent ih =>
    rw [pullWithin, if_neg unspent]
    intro found
    cases found with
    | some word => exact ⟨rfl, Nat.le_refl _⟩
    | none => exact nap_affords (hw _ (Budget.sleep_pos unspent) b.sleep_le) (ih hw)

/-- All words are collected under one budget. -/
theorem collect_costs (missing index : Nat) (hw : ∀ us, 1 ≤ us → us ≤ b.step → W (.nap us)) :
    (collect missing index b).Costs W b.remaining := by
  intro spare
  induction missing generalizing index b with
  | zero => exact Nat.le_add_left spare _
  | succ missing ih =>
    rw [collect, Call.affords_bind]
    refine (pullWithin_affords spare hw).mono (Nat.le_refl _) ?_
    intro r i j hij hr
    cases r with
    | none => exact Nat.le_trans hr hij
    | some r =>
      obtain ⟨step, left_over⟩ := hr
      intro _
      refine (ih (b := r.2) (index + 1) (by rwa [step])).mono (Nat.le_trans left_over hij) ?_
      intro _ i j hij hs
      exact Nat.le_trans hs hij

end Loops

end Joybus.Transceiver
