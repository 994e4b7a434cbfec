import Joybus.Proofs.Answers
import Joybus.Proofs.Engines

/-! Responsive hardware: what it means that a send or a receive is answered in time. -/
namespace Joybus.Transceiver

variable {α : Type} {l : Link} {h ev : Trace} {c : LinkConfig} {P : Trace → Prop}

/-- No engine of direction `d` has room for fewer than `count` words. -/
def Event.fits (d : Direction) (count : Nat) : Event → Bool
  | .acted (.capacity e) n => e ≠ d || count ≤ n
  | _ => true

/-- No engine writes fewer words than it was started for. -/
def Event.fills : Event → Bool
  | .acted (.command (.startRx n)) ws => n ≤ ws.length
  | _ => true

namespace Trace

/-- The history may go on to one with `P`. -/
def Toward (P : Trace → Prop) (h : Trace) : Prop := ∃ later, P (h ++ later)

/-- The transmit hardware answers a send of `count` words in time: the bus turn is seen within its
budget, and the words are taken, by an engine that has room for them and succeeds or through the
FIFO. Engines report on cells in use alone. -/
structure SendAnswered (c : LinkConfig) (count timeout : Nat) (h : Trace) : Prop where
  solicited : h.Solicited
  turn : h.misses .turn ≤ (c.budget c.busTurnTimeout).naps
  room : c.mode = .dma → ∀ e ∈ h, e.fits .tx count
  sent : c.mode = .dma → h.Completes .tx timeout
  taken : c.mode = .fifo → h.misses (.push .tx) ≤ (c.budget timeout).naps + 1

/-- The receive hardware answers a receive of `len` bytes in time: the bit count is taken within
its budget, and the words come, from an engine that has room for them and succeeds or through the
FIFO. Engines report on cells in use alone. -/
structure ReceiveAnswered (c : LinkConfig) (len timeout : Nat) (h : Trace) : Prop where
  solicited : h.Solicited
  published : h.misses (.push .rx) ≤ (c.budget c.busTurnTimeout).naps
  room : c.mode = .dma → ∀ e ∈ h, e.fits .rx (c.packing.wordCount len)
  received : c.mode = .dma → h.Completes .rx timeout
  filled : c.mode = .dma → ∀ e ∈ h, e.fills
  supplied : c.mode = .fifo → h.misses .pull ≤ (c.budget timeout).naps

theorem sendAnswered_iff {count timeout : Nat} : h.SendAnswered c count timeout ↔
    h.Solicited ∧ h.misses .turn ≤ (c.budget c.busTurnTimeout).naps ∧
    (c.mode = .dma → ∀ e ∈ h, e.fits .tx count) ∧ (c.mode = .dma → h.Completes .tx timeout) ∧
    (c.mode = .fifo → h.misses (.push .tx) ≤ (c.budget timeout).naps + 1) := by
  constructor
  · rintro ⟨h1, h2, h3, h4, h5⟩
    exact ⟨h1, h2, h3, h4, h5⟩
  · rintro ⟨h1, h2, h3, h4, h5⟩
    exact ⟨h1, h2, h3, h4, h5⟩

theorem receiveAnswered_iff {len timeout : Nat} : h.ReceiveAnswered c len timeout ↔
    h.Solicited ∧ h.misses (.push .rx) ≤ (c.budget c.busTurnTimeout).naps ∧
    (c.mode = .dma → ∀ e ∈ h, e.fits .rx (c.packing.wordCount len)) ∧
    (c.mode = .dma → h.Completes .rx timeout) ∧ (c.mode = .dma → ∀ e ∈ h, e.fills) ∧
    (c.mode = .fifo → h.misses .pull ≤ (c.budget timeout).naps) := by
  constructor
  · rintro ⟨h1, h2, h3, h4, h5, h6⟩
    exact ⟨h1, h2, h3, h4, h5, h6⟩
  · rintro ⟨h1, h2, h3, h4, h5, h6⟩
    exact ⟨h1, h2, h3, h4, h5, h6⟩

instance (c : LinkConfig) (count timeout : Nat) (h : Trace) :
    Decidable (h.SendAnswered c count timeout) := decidable_of_iff _ sendAnswered_iff.symm

instance (c : LinkConfig) (len timeout : Nat) (h : Trace) :
    Decidable (h.ReceiveAnswered c len timeout) := decidable_of_iff _ receiveAnswered_iff.symm

theorem Toward.of_append (ht : Toward P (h ++ ev)) : h.Toward P := by
  obtain ⟨later, hp⟩ := ht
  exact ⟨ev ++ later, by simpa using hp⟩

theorem Toward.mono {P' : Trace → Prop} (ht : h.Toward P) (hp : ∀ h, P h → P' h) :
    h.Toward P' := by
  obtain ⟨later, hl⟩ := ht
  exact ⟨later, hp _ hl⟩

theorem Toward.self (hp : P h) : h.Toward P := ⟨[], by simpa using hp⟩

theorem Toward.solicited (ht : h.Toward P) (hp : ∀ h, P h → h.Solicited) : h.Solicited := by
  obtain ⟨later, hl⟩ := ht
  exact (hp _ hl).of_append

theorem Toward.completes {d : Direction} {us : Nat} (ht : h.Toward P)
    (hp : ∀ h, P h → h.Completes d us) : h.Completes d us := by
  obtain ⟨later, hl⟩ := ht
  exact (hp _ hl).of_append

theorem Toward.misses_le {k : Look} {n : Nat} (ht : h.Toward P)
    (hp : ∀ h, P h → h.misses k ≤ n) : h.misses k ≤ n := by
  obtain ⟨later, hl⟩ := ht
  have hm := hp _ hl
  rw [misses_append] at hm
  omega

theorem Toward.forall_mem {e : Event} {f : Event → Bool} (ht : h.Toward P) (he : e ∈ h)
    (hp : ∀ h, P h → ∀ e ∈ h, f e) : f e := by
  obtain ⟨later, hl⟩ := ht
  exact hp _ hl e (List.mem_append_left later he)

end Trace

open Trace

theorem Call.uses_any (call : Call α) : call.Uses (fun _ => True) fun _ _ => True := by
  induction call with
  | done a => trivial
  | act a next ih => exact ⟨trivial, ih⟩
  | wait p undo next ih => exact ⟨trivial, ih⟩

/-- Nothing needs to be shown once the hardware has failed to answer. -/
theorem Call.ensures_hopeless {Q : α → Link → Trace → Prop} {call : Call α}
    (hn : ¬ h.Toward P) :
    call.Ensures (fun a l h' => h'.Toward P → Q a l h') (fun _ _ => True) l h := by
  have keeps : Keeps (fun a => ∀ _ : a.Answer, True) (fun _ => True)
      fun _ h => ¬ h.Toward P := by
    refine .of_trace (E := fun _ => True) (P := fun h => ¬ h.Toward P) (fun _ _ => trivial) ?_
    intro h e _ hn ht
    exact hn ht.of_append
  refine (keeps.uses call.uses_any (fun _ _ _ => trivial) (fun p _ _ => p.within_any)
    (fun _ _ _ _ _ _ => ensuresAll_true) hn).imp ?_
  intro a l h hn ht
  exact (hn ht).elim

theorem Call.ensures_hopeful {Q : α → Link → Trace → Prop} {call : Call α}
    (hc : h.Toward P →
      call.Ensures (fun a l h' => h'.Toward P → Q a l h') (fun _ _ => True) l h) :
    call.Ensures (fun a l h' => h'.Toward P → Q a l h') (fun _ _ => True) l h := by
  by_cases ht : h.Toward P
  · exact hc ht
  · exact Call.ensures_hopeless ht

end Joybus.Transceiver
