import Joybus.Proofs.Ensures
import Joybus.Transceiver.Session

/-! Properties of whole sessions from properties of the four basic calls. -/
namespace Joybus.Transceiver

variable {σ : Type} {I : LinkConfig → Link → Trace → Prop}

/-- What every operation on a transceiver keeps: each of the basic calls, finished or dropped,
reports out of turn, reports consumed by somebody else, and a change of transceiver. -/
structure Kept (I : LinkConfig → Link → Trace → Prop) : Prop where
  send : ∀ c bytes timeout l h, I c l h →
    (Transceiver.send c bytes timeout).Ensures (fun _ => I c) (I c) l h
  arm : ∀ c len l h, I c l h → (armReceive c len).Ensures (fun _ => I c) (I c) l h
  finish : ∀ c timeout l h, I c l h → (finishReceive c timeout).Ensures (fun _ => I c) (I c) l h
  cancel : ∀ c l h, I c l h → (cancelReceive c).Ensures (fun _ => I c) (fun _ _ => False) l h
  marks : ∀ c ms l h, I c l h → I c (l.markAll ms) (h ++ l.markTrace ms)
  take : ∀ c d l h, I c l h → I c (l.take d) (h ++ consumption d (l.status d).report?)
  recreate : ∀ c c' l h, I c l h → Action.EnsuresAll (fun l h => I c' l.renew h) farewell l h

namespace Kept

theorem and {I' : LinkConfig → Link → Trace → Prop} (hk : Kept I) (hk' : Kept I') :
    Kept fun c l h => I c l h ∧ I' c l h where
  send c bytes timeout l h hi :=
    (hk.send c bytes timeout l h hi.1).and (hk'.send c bytes timeout l h hi.2)
  arm c len l h hi := (hk.arm c len l h hi.1).and (hk'.arm c len l h hi.2)
  finish c timeout l h hi := (hk.finish c timeout l h hi.1).and (hk'.finish c timeout l h hi.2)
  cancel c l h hi :=
    ((hk.cancel c l h hi.1).and (hk'.cancel c l h hi.2)).mono (fun _ _ _ hn => hn)
      fun _ _ hn => hn.1
  marks c ms l h hi := ⟨hk.marks c ms l h hi.1, hk'.marks c ms l h hi.2⟩
  take c d l h hi := ⟨hk.take c d l h hi.1, hk'.take c d l h hi.2⟩
  recreate c c' l h hi := (hk.recreate c c' l h hi.1).and (hk'.recreate c c' l h hi.2)

theorem receive (hk : Kept I) {c : LinkConfig} {l : Link} {h : Trace} (hi : I c l h)
    (len timeout : Nat) :
    (Transceiver.receive c len timeout).Ensures (fun _ => I c) (I c) l h := by
  simp only [Transceiver.receive, Call.ensures_bind]
  refine (hk.arm c len l h hi).mono ?_ fun _ _ hn => hn
  intro r l h hn
  cases r with
  | error e => exact hn
  | ok => exact hk.finish c timeout l h hn

theorem exchange (hk : Kept I) {c : LinkConfig} {l : Link} {h : Trace} (hi : I c l h)
    (bytes : List Byte) (len timeout : Nat) :
    (Transceiver.exchange c bytes len timeout).Ensures (fun _ => I c) (I c) l h := by
  unfold Transceiver.exchange
  split
  · exact hi
  simp only [Call.ensures_bind]
  refine (hk.arm c len l h hi).mono ?_ fun _ _ hn => hn
  intro r l h hn
  cases r with
  | error e => exact hn
  | ok =>
    simp only [Call.ensures_bind]
    refine (hk.send c bytes timeout l h hn).mono ?_ fun _ _ hn => hn
    intro r l h hn
    cases r with
    | error e =>
      rw [Call.ensures_bind]
      exact (hk.cancel c l h hn).mono (fun _ _ _ hn => hn) fun _ _ hn => hn.elim
    | ok =>
      rw [Call.ensures_bind]
      refine (hk.finish c timeout l h hn).mono ?_ fun _ _ hn => hn
      intro r l h hn
      cases r <;> exact hn

theorem request (hk : Kept I) {c : LinkConfig} {l : Link} {h : Trace} (hi : I c l h)
    (r : Request) : (r.call c).Ensures (fun _ => I c) (I c) l h := by
  cases r with
  | send bytes timeout =>
    rw [Request.call, Call.ensures_map]
    exact hk.send c bytes timeout l h hi
  | arm len =>
    rw [Request.call, Call.ensures_map]
    exact hk.arm c len l h hi
  | finish timeout =>
    rw [Request.call, Call.ensures_map]
    exact hk.finish c timeout l h hi
  | receive len timeout =>
    rw [Request.call, Call.ensures_map]
    exact hk.receive hi len timeout
  | exchange bytes len timeout =>
    rw [Request.call, Call.ensures_map]
    exact hk.exchange hi bytes len timeout

/-- One operation keeps it. -/
theorem step (hk : Kept I) (H : Hardware σ) {s : Session σ} {h : Trace}
    (hi : I s.config s.world.link h) (op : Operation) :
    I (s.step H op).2.1.config (s.step H op).2.1.world.link (h ++ (s.step H op).2.2) := by
  cases op with
  | request r polls => exact Call.Ensures.keeps H (hk.request hi r) hi polls
  | cancel =>
    obtain ⟨_, _, hn⟩ := Call.Ensures.finishes H (hk.cancel _ _ _ hi)
    exact hn
  | disturb m => exact hk.marks _ _ _ _ hi
  | take d => exact hk.take _ d _ _ hi
  | recreate c =>
    have hr := Action.EnsuresAll.performAll H (hk.recreate _ c _ _ hi)
    exact hr

/-- A run of any operations keeps it. -/
theorem run (hk : Kept I) (H : Hardware σ) {s : Session σ} {h : Trace}
    (hi : I s.config s.world.link h) (ops : List Operation) :
    I (s.run H ops).2.config (s.run H ops).2.world.link
      (h ++ ((s.run H ops).1.map Prod.snd).flatten) := by
  induction ops generalizing s h with
  | nil => simpa [Session.run] using hi
  | cons op ops ih =>
    have hn := ih (hk.step H hi op)
    simpa [Session.run] using hn

/-- What holds of an empty history holds of the trace of each operation. -/
theorem each (hk : Kept I) (H : Hardware σ) (start : ∀ c l, I c l []) (s : Session σ)
    (ops : List Operation) : ∀ tr ∈ (s.run H ops).1.map Prod.snd, ∃ c l, I c l tr := by
  induction ops generalizing s with
  | nil => simp [Session.run]
  | cons op ops ih =>
    have hn : I _ _ _ := hk.step H (start s.config s.world.link) op
    simp only [Session.run, List.map_cons, List.forall_mem_cons]
    exact ⟨⟨_, _, hn⟩, ih _⟩

end Kept

end Joybus.Transceiver
