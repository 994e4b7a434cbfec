import Joybus.Proofs.BusTurn
import Joybus.Proofs.Exclusion
import Joybus.Proofs.Responsive

/-! What a call that fails or is cut leaves in its trace: engines stopped after their start, and
programs reset. -/
namespace Joybus.Transceiver

variable {α : Type} {d : Direction} {l : Link} {h : Trace} {e : Event} {c : LinkConfig}

-- Whether an action starts, stops, drives or resets anything is then decided by `simp`.
attribute [simp] Command.Starts Event.Starts Event.stops

namespace Event

/-- The bit-level program of direction `d` is used. -/
@[simp] def drives (d : Direction) : Event → Bool
  | .acted (.command (.flag e _)) _ | .acted (.command (.clear e _)) _
  | .acted (.command (.notify e)) _ | .acted (.command (.reset e)) _
  | .acted (.command (.push e _)) _ | .acted (.command (.pull e)) _ => e = d
  | _ => false

/-- The bit-level program of direction `d` is reset. -/
@[simp] def resets (d : Direction) : Event → Bool
  | .acted (.command (.reset e)) _ => e = d
  | _ => false

/-- The program of direction `d` takes a word. -/
@[simp] def accepts (d : Direction) : Event → Bool
  | .acted (.command (.push e _)) taken => e = d && taken
  | _ => false

/-- No command, but for a look at the bus-turn flag that finds it down. -/
@[simp] def looksInVain : Event → Bool
  | .acted (.command (.flag .tx i)) seen => i = busTurnFlag && !seen
  | .acted (.command _) _ => false
  | _ => true

end Event

namespace Trace

/-- The program of direction `d` was not reset. -/
def Unreset (d : Direction) (h : Trace) : Prop := ∀ e ∈ h, ¬ e.resets d

/-- The program of direction `d` was reset once and not used since. -/
def ResetLast (d : Direction) (h : Trace) : Prop :=
  ∃ pre post : Trace, h = pre ++ .acted (.command (.reset d)) () :: post ∧ pre.Unreset d ∧
    ∀ e ∈ post, ¬ e.drives d

/-- Every transfer of direction `d` that was started was stopped since. -/
def Stopped (d : Direction) (h : Trace) : Prop := h.Followed (·.Starts d) (·.stops d)

/-- The program of direction `d` was not reset, and no transfer is left running. -/
def Spared (d : Direction) (h : Trace) : Prop := h.Unreset d ∧ h.Stopped d

/-- The engine of direction `d` was stopped, and with it whatever it was started on. -/
def Halted (d : Direction) (h : Trace) : Prop := h.Stopped d ∧ ∃ e ∈ h, e.stops d

/-- What a cut in the middle of a transfer leaves: the engine is stopped and the program left alone,
or, where there is no engine, the program is reset. -/
def CutShort (m : TransferMode) (d : Direction) (h : Trace) : Prop :=
  match m with
  | .dma => h.Unreset d ∧ h.Halted d
  | .fifo => h.ResetLast d ∧ h.Stopped d

instance (h : Trace) : Decidable (h.Unreset d) :=
  inferInstanceAs (Decidable (∀ e ∈ h, ¬ e.resets d))

theorem unreset_nil : Unreset d [] := by simp [Unreset]

theorem stopped_nil : Stopped d [] := followed_of_none (by simp)

theorem Unreset.concat (hu : h.Unreset d) (he : ¬ e.resets d) : Unreset d (h ++ [e]) :=
  List.forall_mem_append.2 ⟨hu, List.forall_mem_singleton.2 he⟩

theorem Unreset.reset (hu : h.Unreset d) :
    ResetLast d (h ++ [.acted (.command (.reset d)) ()]) :=
  ⟨h, [], rfl, hu, by simp⟩

theorem spared_nil : Spared d [] := ⟨unreset_nil, stopped_nil⟩

theorem ResetLast.concat (hr : h.ResetLast d) (he : ¬ e.drives d) : ResetLast d (h ++ [e]) := by
  obtain ⟨pre, post, rfl, hu, hp⟩ := hr
  exact ⟨pre, post ++ [e], by simp, hu,
    List.forall_mem_append.2 ⟨hp, List.forall_mem_singleton.2 he⟩⟩

theorem CutShort.stopped {m : TransferMode} (hc : h.CutShort m d) : h.Stopped d := by
  cases m with
  | dma => exact hc.2.1
  | fifo => exact hc.2

end Trace

open Trace

/-- A call that comes back without having finished its transfer. -/
def Reply.Failed : Reply → Prop
  | .sent (.error .timedOut) | .sent (.error .hardwareFault)
  | .armed (.error .timedOut) | .armed (.error .hardwareFault)
  | .received (.error .timedOut) | .received (.error .hardwareFault) => True
  | _ => False

/-- An action that leaves the program of direction `d` running. -/
@[simp] def Action.ResetsNot (d : Direction) (a : Action) : Prop :=
  ∀ x, ¬ (Event.acted a x).resets d

/-- An action that does not use the program of direction `d`. -/
@[simp] def Action.DrivesNot (d : Direction) (a : Action) : Prop :=
  ∀ x, ¬ (Event.acted a x).drives d

/-- An action that starts no engine of direction `d`. -/
@[simp] def Action.StartsNot (d : Direction) (a : Action) : Prop :=
  ∀ x, ¬ (Event.acted a x).Starts d

/-- An action that neither resets the program of direction `d` nor starts its engine. -/
@[simp] def Action.Aloof (d : Direction) (a : Action) : Prop := a.ResetsNot d ∧ a.StartsNot d

section Keeping

theorem inert_of_passive (he : e.Passive) :
    ¬ e.resets d ∧ ¬ e.drives d ∧ ¬ e.accepts d ∧ e.looksInVain := by
  cases e with
  | acted a x => exact he.elim
  | _ => simp

theorem keeps_unreset (d : Direction) :
    Keeps (Action.ResetsNot d) (fun _ => True) fun _ h => h.Unreset d :=
  keeps_forall (E := fun e => ¬ e.resets d) fun _ he => (inert_of_passive he).1

theorem keeps_stopped (d : Direction) :
    Keeps (Action.StartsNot d) (fun _ => True) fun _ h => h.Stopped d :=
  .of_trace (E := fun e => ¬ e.Starts d) (fun _ he => not_starts_of_passive he)
    fun _ _ he hs => followed_concat he (.inr hs)

theorem keeps_spared (d : Direction) :
    Keeps (Action.Aloof d) (fun _ => True) fun _ h => h.Spared d :=
  (keeps_unreset d).both (keeps_stopped d)

theorem keeps_resetLast (d : Direction) :
    Keeps (Action.DrivesNot d) (fun _ => True) fun _ h => h.ResetLast d :=
  .of_trace (E := fun e => ¬ e.drives d) (fun _ he => (inert_of_passive he).2.1)
    fun _ _ he hr => hr.concat he

theorem keeps_halted (d : Direction) :
    Keeps (Action.StartsNot d) (fun _ => True) fun _ h => h.Halted d :=
  (keeps_stopped d).and ((keeps_mem _).weaken (fun _ _ => trivial) fun _ hd => hd)

/-- What every step keeps, every call keeps. -/
theorem Keeps.always {P : Link → Trace → Prop} (hk : Keeps (fun _ => True) (fun _ => True) P)
    (call : Call α) (hp : P l h) : call.Ensures (fun _ => P) P l h :=
  hk.uses call.uses_any (fun _ _ => trivial) (fun p _ _ => p.within_any)
    (fun _ _ _ _ _ hp => hk.all (fun _ _ => trivial) hp) hp

/-- What happened before a call stays in the history, however the call ends. -/
theorem Call.ensures_mem {E : Event → Prop} (call : Call α) (he : ∃ e ∈ h, E e) :
    call.Ensures (fun _ _ h => ∃ e ∈ h, E e) (fun _ h => ∃ e ∈ h, E e) l h :=
  (keeps_mem E).always call he

end Keeping

section GivingUp

/-- A transfer that is abandoned is stopped, its program left alone. -/
theorem abandon_cutShort (hu : h.Unreset d) :
    Action.EnsuresAll (fun _ => CutShort .dma d) (Action.abandon d) l h := by
  have keeps := (keeps_unreset d).both (keeps_halted d)
  intro _ ms
  have stopped := keeps.command (l := l) (c := .abort d) (x := ()) ms
    ⟨hu.concat (by simp), followed_concat id (.inl (by simp)),
      _, List.mem_append_right _ (List.mem_singleton.2 rfl), by simp⟩
  refine keeps.all ?_ stopped
  cases d <;> simp [Action.setIdle]

/-- A transfer through the FIFO that is scrapped resets its program. -/
theorem scrap_cutShort (hu : h.Spared d) :
    Action.EnsuresAll (fun _ => CutShort .fifo d) (Action.scrap d) l h := by
  have keeps := (keeps_resetLast d).both (keeps_stopped d)
  intro _ ms
  have reset := keeps.command (l := l) (c := .reset d) (x := ()) ms
    ⟨hu.1.reset, followed_concat id (.inr hu.2)⟩
  refine keeps.all ?_ reset
  cases d <;> simp [Action.setIdle]

/-- An engine transfer that is given up is stopped, then its program is reset. -/
theorem giveUp_resets (a : α) {R : Link → Trace → Prop} (hu : h.Unreset d) :
    (do Call.performAll (Action.abandon d); Call.reset d; pure a : Call α).Ensures
      (fun r _ h => r = a ∧ h.ResetLast d ∧ h.Halted d) R l h := by
  rw [Call.ensures_bind, Call.ensures_performAll]
  refine (abandon_cutShort hu).mono ?_
  rintro l h ⟨hu, hs, e, he, hx⟩
  refine ((keeps_resetLast d).both (keeps_halted d)).reach (fun _ => ⟨hu.reset, ?_⟩)
    fun _ _ _ hr => ⟨rfl, hr⟩
  exact ⟨followed_concat id (.inr hs), e, List.mem_append_left _ he, hx⟩

variable {β : Type} {f : β → Call α} {Q : α → Link → Trace → Prop} {R : Link → Trace → Prop}

/-- A reset that leaves nothing else to undo. -/
theorem reset_unwinds {f : Unit → Call α} (hu : h.Spared d)
    (next : ∀ l h, h.ResetLast d ∧ h.Stopped d → (f ()).Ensures Q R l h) :
    (Call.reset d >>= f).Ensures Q R l h :=
  ((keeps_resetLast d).both (keeps_stopped d)).reach
    (fun _ => ⟨hu.1.reset, followed_concat id (.inr hu.2)⟩) fun _ => next

/-- A wait for an engine that is cut stops it, its program left alone. -/
theorem completion_unwinds {f : Option Completion.Report → Call α} {us : Nat} (hu : h.Unreset d)
    (next : ∀ r l h, h.Unreset d → (f r).Ensures Q (fun _ => CutShort .dma d) l h) :
    (Call.completion d us >>= f).Ensures Q (fun _ => CutShort .dma d) l h := by
  rw [Call.ensures_bind, Call.ensures_completion]
  refine ((keeps_unreset d).wait (p := .completion d us) trivial hu).mono ?_ next
  intro l h hu
  exact abandon_cutShort hu

/-- A transfer through the FIFO that is cut at any of its sleeps is scrapped. -/
theorem fifo_unwinds {call : Call β}
    (hc : call.Uses (Action.Aloof d) fun p undo => p.IsNap ∧ undo = Action.scrap d)
    (hu : h.Spared d)
    (next : ∀ x l h, h.Spared d → (f x).Ensures Q (fun _ => CutShort .fifo d) l h) :
    (call >>= f).Ensures Q (fun _ => CutShort .fifo d) l h := by
  rw [Call.ensures_bind]
  refine ((keeps_spared d).uses hc (fun _ ha => ha) (fun p _ _ => p.within_any) ?_ hu).mono next
    fun _ _ hr => hr
  rintro p undo ⟨-, rfl⟩ l h hu
  exact scrap_cutShort hu

end GivingUp

end Joybus.Transceiver
