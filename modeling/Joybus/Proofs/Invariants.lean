import Joybus.Proofs.Sides

/-! Properties of the link and its history that the steps of a call keep, and so whole calls. -/
namespace Joybus.Transceiver

variable {α : Type} {A : Action → Prop} {D : Direction → Prop} {P : Link → Trace → Prop}
  {l : Link} {h : Trace}

/-- The link after an action, before engines report. -/
def Action.effect : (a : Action) → a.Answer → Link → Link
  | .command c, x, l => l.deposit c x
  | .arm d, _, l => { l with cells := l.cells.modify d .arm }
  | .disarm d, _, l => { l with cells := l.cells.modify d .disarm }
  | .setTx s, _, l => { l with tx := s }
  | .setRx s, _, l => { l with rx := s }
  | .setExpected n, _, l => { l with expected := n }
  | .stage ws, _, l => { l with staged := l.staged.overwrite ws }
  | .store i x, _, l => { l with received := l.received.setIfInBounds i x }
  | .capacity _, _, l | .status _, _, l | .txState, _, l | .expected, _, l | .staged _, _, l
  | .fetch _, _, l => l

/-- A sleep, or a wait for an engine of a direction in `D`. -/
def Wait.Within (D : Direction → Prop) : Wait → Prop
  | .nap _ => True
  | .completion d _ => D d

theorem Wait.within_any (p : Wait) : p.Within fun _ => True := by
  cases p <;> trivial

theorem Wait.IsNap.within {p : Wait} (hp : p.IsNap) : p.Within D := by
  cases p with
  | nap us => trivial
  | completion d us => exact hp.elim

/-- The property is kept by actions in `A`, by reports and delays, and when a report of a direction
in `D` is consumed. -/
structure Keeps (A : Action → Prop) (D : Direction → Prop) (P : Link → Trace → Prop) : Prop where
  act : ∀ a, A a → ∀ x l h, P l h → P (a.effect x l) (h ++ [.acted a x])
  mark : ∀ m l h, P l h → P (l.mark m) (h ++ [.marked m (l.status m.dir)])
  wake : ∀ d l h, P l h → P (l.leaveWaker d) h
  delay : ∀ us l h, P l h → P l (h ++ [.delayed us])
  take : ∀ d, D d → ∀ r l h, (l.status d).report? = some r → P l h →
    P (l.take d) (h ++ [.consumed ⟨d, r⟩])

namespace Keeps

theorem weaken {A' : Action → Prop} {D' : Direction → Prop} (hk : Keeps A D P)
    (ha : ∀ a, A' a → A a) (hd : ∀ d, D' d → D d) : Keeps A' D' P where
  act a hA := hk.act a (ha a hA)
  mark := hk.mark
  wake := hk.wake
  delay := hk.delay
  take d hD := hk.take d (hd d hD)

theorem and {P' : Link → Trace → Prop} (hk : Keeps A D P) (hk' : Keeps A D P') :
    Keeps A D fun l h => P l h ∧ P' l h where
  act a ha x l h hp := ⟨hk.act a ha x l h hp.1, hk'.act a ha x l h hp.2⟩
  mark m l h hp := ⟨hk.mark m l h hp.1, hk'.mark m l h hp.2⟩
  wake d l h hp := ⟨hk.wake d l h hp.1, hk'.wake d l h hp.2⟩
  delay us l h hp := ⟨hk.delay us l h hp.1, hk'.delay us l h hp.2⟩
  take d hd r l h hr hp := ⟨hk.take d hd r l h hr hp.1, hk'.take d hd r l h hr hp.2⟩

/-- Two properties together are kept by the actions that keep each of them. -/
theorem both {A' : Action → Prop} {P' : Link → Trace → Prop} (hk : Keeps A D P)
    (hk' : Keeps A' D P') : Keeps (fun a => A a ∧ A' a) D fun l h => P l h ∧ P' l h :=
  (hk.weaken (fun _ ha => ha.1) fun _ hd => hd).and
    (hk'.weaken (fun _ ha => ha.2) fun _ hd => hd)

theorem given (hk : Keeps A D P) (p : Prop) : Keeps A D fun l h => p → P l h where
  act a ha x l h hp hq := hk.act a ha x l h (hp hq)
  mark m l h hp hq := hk.mark m l h (hp hq)
  wake d l h hp hq := hk.wake d l h (hp hq)
  delay us l h hp hq := hk.delay us l h (hp hq)
  take d hd r l h hr hp hq := hk.take d hd r l h hr (hp hq)

theorem marks (hk : Keeps A D P) (ms : List Mark) (hp : P l h) :
    P (l.markAll ms) (h ++ l.markTrace ms) := by
  induction ms generalizing l h with
  | nil => simpa [Link.markAll, Link.markTrace] using hp
  | cons m ms ih =>
    have hn := ih (hk.mark m l h hp)
    simpa [Link.markAll, Link.markTrace] using hn

theorem consumption (hk : Keeps A D P) {d : Direction} (hd : D d) (hp : P l h) :
    P (l.take d) (h ++ consumption d (l.status d).report?) := by
  cases hr : (l.status d).report? with
  | none => simpa [Transceiver.consumption, Link.take_eq_self hr] using hp
  | some r => exact hk.take d hd r l h hr hp

theorem command (hk : Keeps A D P) {c : Command} {x : c.Answer} (ms : List Mark)
    (hp : P (l.deposit c x) (h ++ [.acted (.command c) x])) :
    P ((l.deposit c x).markAll ms) (h ++ .acted (.command c) x :: l.markTrace ms) := by
  have hm := hk.marks ms hp
  rw [Link.markTrace_congr (Link.status_deposit l c x)] at hm
  simpa using hm

/-- An action after which the property holds. -/
theorem reach_act (hk : Keeps A D P) {a : Action} {K : a.Answer → Link → Trace → Prop}
    (hp : ∀ x, P (a.effect x l) (h ++ [.acted a x])) (next : ∀ x l h, P l h → K x l h) :
    a.Ensures K l h := by
  cases a with
  | command c => intro x ms; exact next _ _ _ (hk.command ms (hp x))
  | capacity d => intro n; exact next _ _ _ (hp n)
  | _ => exact next _ _ _ (hp _)

theorem all (hk : Keeps A D P) {as : List Action} (ha : ∀ a ∈ as, A a) (hp : P l h) :
    Action.EnsuresAll P as l h := by
  refine Action.ensuresAll_of_mem ?_ ha hp
  intro a ha l h hp
  exact hk.reach_act (fun x => hk.act a ha x l h hp) fun _ _ _ hp => hp

section Steps
variable {Q : α → Link → Trace → Prop} {R : Link → Trace → Prop} {a : Action}
  {f : a.Answer → Call α}

/-- A first step that keeps the property. -/
theorem perform (hk : Keeps A D P) (ha : A a) (hp : P l h)
    (next : ∀ x l h, P l h → (f x).Ensures Q R l h) : (Call.perform a >>= f).Ensures Q R l h :=
  hk.reach_act (fun x => hk.act a ha x l h hp) next

/-- A first step after which the property holds. -/
theorem reach (hk : Keeps A D P) (hp : ∀ x, P (a.effect x l) (h ++ [.acted a x]))
    (next : ∀ x l h, P l h → (f x).Ensures Q R l h) : (Call.perform a >>= f).Ensures Q R l h :=
  hk.reach_act hp next

/-- The engine finds the words that were staged, if there is room for them. -/
theorem stage {f : List Word → Call α} {words : List Word} (hk : Keeps A D P)
    (hs : A (.stage words)) (hr : A (.staged words.length)) (hp : P l h)
    (next : ∀ ws, (words.length ≤ WordStream.capacity → ws = words) →
      ∀ l h, P l h → (f ws).Ensures Q R l h) : (stageWords words >>= f).Ensures Q R l h := by
  have read := hk.act _ hr ((l.staged.overwrite words).take words.length) _ _
    (hk.act _ hs () l h hp)
  exact next _ l.staged.toList_take_overwrite _ _ read

end Steps

theorem wait (hk : Keeps A D P) {p : Wait} (hw : p.Within D) (hp : P l h) :
    p.Ensures P p.beginning (fun _ => P) l h := by
  cases p with
  | nap us =>
    intro ms
    have hm := hk.marks ms (hk.delay us l h hp)
    exact ⟨hm, hm⟩
  | completion d us =>
    have hl := hk.wake d l h hp
    refine ⟨?_, ?_⟩
    · intro r hr
      refine hk.take d hw r _ h ?_ hl
      rwa [Link.status_leaveWaker]
    · intro _ ms
      have hm := hk.marks ms (hk.delay us _ h hl)
      rw [Link.markTrace_congr (Link.status_leaveWaker l d)] at hm
      exact ⟨hm, hk.consumption hw hm⟩

/-- A call all of whose actions keep the property keeps it; dropped at a wait it leads to `R`. -/
theorem uses {A' : Action → Prop} {W : Wait → List Action → Prop} {R : Link → Trace → Prop}
    {call : Call α} (hk : Keeps A D P) (hu : call.Uses A' W) (ha : ∀ a, A' a → A a)
    (hw : ∀ p undo, W p undo → p.Within D)
    (drop : ∀ p undo, W p undo → ∀ l h, P l h → Action.EnsuresAll R undo l h) (hp : P l h) :
    call.Ensures (fun _ => P) R l h := by
  refine hu.ensures ?_ ?_ drop hp
  · intro a hA l h hp
    exact hk.reach_act (fun x => hk.act a (ha a hA) x l h hp) fun _ _ _ hp => hp
  · intro p undo hW l h hp
    exact hk.wait (hw p undo hW) hp

theorem onSide {d : Direction} {call : Call α} (hk : Keeps A D P) (hc : call.OnSide d)
    (ha : ∀ a, a.side = d → A a) (hd : D d) (hp : P l h) : call.Ensures (fun _ => P) P l h := by
  refine hk.uses hc ha ?_ ?_ hp
  · intro p undo hu
    obtain ⟨hw, _⟩ := hu
    cases p with
    | nap us => trivial
    | completion e us => exact Eq.mpr (congrArg D hw) hd
  · intro p undo hw l h hp
    obtain ⟨_, hu⟩ := hw
    exact hk.all (fun a hm => ha a (hu a hm)) hp

theorem engineless {call : Call α} (hk : Keeps A D P) (hc : call.Engineless)
    (ha : ∀ a, a.Engineless → A a) (hp : P l h) : call.Ensures (fun _ => P) P l h := by
  refine hk.uses hc ha ?_ ?_ hp
  · intro p undo hu
    obtain ⟨hw, _⟩ := hu
    exact hw.within
  · intro p undo hw l h hp
    obtain ⟨_, hu⟩ := hw
    exact hk.all (fun a hm => ha a (hu a hm)) hp

end Keeps

/-- For calls of which nothing is known on the way. -/
theorem keeps_true : Keeps (fun _ => True) (fun _ => True) fun _ _ => True where
  act _ _ _ _ _ _ := trivial
  mark _ _ _ _ := trivial
  wake _ _ _ _ := trivial
  delay _ _ _ _ := trivial
  take _ _ _ _ _ _ _ := trivial

theorem ensuresAll_true {as : List Action} : Action.EnsuresAll (fun _ _ => True) as l h :=
  keeps_true.all (fun _ _ => trivial) trivial

/-- A call that sleeps at most, of which it does not matter how it is dropped. -/
theorem Keeps.naps {call : Call α} (hk : Keeps A D P) (hu : call.Uses A fun p _ => p.IsNap)
    (hp : P l h) : call.Ensures (fun _ => P) (fun _ _ => True) l h :=
  hk.uses hu (fun _ ha => ha) (fun _ _ hw => hw.within) (fun _ _ _ _ _ _ => ensuresAll_true) hp

/-- A first step the hardware has no part in, so that nothing is reported meanwhile. -/
theorem reach_internal {Q : α → Link → Trace → Prop} {R : Link → Trace → Prop} {a : Action}
    {f : a.Answer → Call α} (ha : ∀ c, a ≠ .command c)
    (hp : ∀ x, P (a.effect x l) (h ++ [.acted a x]))
    (next : ∀ x l h, P l h → (f x).Ensures Q R l h) : (Call.perform a >>= f).Ensures Q R l h := by
  cases a with
  | command c => exact (ha c rfl).elim
  | capacity d => intro n; exact next _ _ _ (hp n)
  | _ => exact next _ _ _ (hp _)

end Joybus.Transceiver
