import Joybus.Proofs.Closings
import Joybus.Proofs.Endings

/-! Watching the delay: hardware that remembers what the last look at its delay found, and what the
end of a driven call says about it. -/
namespace Joybus.Transceiver

open Position (Reaches)

variable {σ α β : Type} {H : Hardware σ} {d : Direction} {c : LinkConfig}

/-- The same hardware, which remembers whether its delay was over when it was looked at last. -/
def Hardware.watched (H : Hardware σ) : Hardware (σ × Bool) where
  respond command s :=
    let r := H.respond command s.1
    ⟨r.answer, r.marks, r.state, s.2⟩
  capacity d s := H.capacity d s.1
  programCounter d s := H.programCounter d s.1
  startDelay us s := ⟨H.startDelay us s.1, false⟩
  pollDelay s :=
    let r := H.pollDelay s.1
    ⟨r.answer, r.marks, r.state, r.answer⟩
  interrupt m s :=
    let r := H.interrupt m s.1
    ⟨r.answer, r.marks, r.state, s.2⟩

namespace World

/-- The world over watched hardware, before any look at a delay. -/
def watched (w : World σ) : World (σ × Bool) := ⟨w.link, w.hardware, false⟩

/-- The delay was over when it was looked at last. -/
def expired (w : World (σ × Bool)) : Bool := w.hardware.2

end World

/-- The call, driven from here, leaves a delay that was over when it was looked at last. -/
def Call.elapses (H : Hardware σ) (call : Call α) (w : World σ) (polls : Nat) : Bool :=
  (call.drive H.watched w.watched polls).world.expired

theorem Hardware.watched_projects (H : Hardware σ) :
    H.watched.Projects H Prod.fst fun _ => True where
  respond _ _ _ := trivial
  startDelay _ _ _ := trivial
  pollDelay _ _ := trivial
  interrupt _ _ _ := trivial
  respond_eq _ _ _ := rfl
  capacity_eq _ _ _ := rfl
  startDelay_eq _ _ _ := rfl
  pollDelay_eq _ _ := rfl
  interrupt_eq _ _ _ := rfl

/-- Watching changes nothing. -/
theorem Call.drive_watched (H : Hardware σ) (call : Call α) (w : World σ) (polls : Nat) :
    (call.drive H.watched w.watched polls).project Prod.fst = call.drive H w polls :=
  H.watched_projects.drive_eq trivial call polls

section Looks
variable {w : World (σ × Bool)}

@[simp] theorem expired_perform (w : World (σ × Bool)) (a : Action) :
    (H.watched.perform w a).world.expired = w.expired := by
  cases a <;> rfl

@[simp] theorem expired_performAll (w : World (σ × Bool)) (as : List Action) :
    (H.watched.performAll w as).world.expired = w.expired := by
  induction as generalizing w with
  | nil => rfl
  | cons a as ih => exact (ih _).trans (expired_perform w a)

/-- What a look at the delay finds is remembered. -/
def Remembers (delay : World (σ × Bool) → Outcome (σ × Bool) Bool) : Prop :=
  ∀ w, (delay w).world.expired = (delay w).value

theorem remembers_lookAtDelay : Remembers H.watched.lookAtDelay := fun _ => rfl

theorem remembers_beginDelay (us : Nat) : Remembers (H.watched.beginDelay us) := fun _ => rfl

/-- The answer of a wait that only the end of its delay gives. -/
def Wait.Elapsed : (p : Wait) → p.Answer → Prop
  | .nap _, _ => True
  | .completion _ _, r => r = none

namespace Remembers
variable {delay : World (σ × Bool) → Outcome (σ × Bool) Bool} (hd : Remembers delay)
include hd

theorem pollNap_none (hv : (w.pollNap delay).value = none) :
    (w.pollNap delay).world.expired = false := by
  obtain ⟨ha, hw⟩ := World.pollNap_none hv
  rw [hw, hd, ha]

theorem pollCompletion_none (hv : (w.pollCompletion d delay).value = none) :
    (w.pollCompletion d delay).world.expired = false := by
  obtain ⟨w', -, ha, hw⟩ := World.pollCompletion_none hv
  rw [hw, hd, ha]

theorem pollNap_some {x : Unit} (hv : (w.pollNap delay).value = some x) :
    (w.pollNap delay).world.expired = true := by
  refine (hd w).trans ?_
  cases ha : (delay w).value with
  | true => rfl
  | false => simp [World.pollNap, Outcome.map, ha] at hv

theorem pollCompletion_some (hv : (w.pollCompletion d delay).value = some none) :
    (w.pollCompletion d delay).world.expired = true := by
  cases hs : (w.lookAtCell d).value with
  | some r => simp [World.pollCompletion, hs, Outcome.map] at hv
  | none =>
    cases ha : (delay (w.lookAtCell d).world).value with
    | true =>
      simp only [World.pollCompletion, hs, Outcome.after, ha, if_true]
      exact (hd _).trans ha
    | false => simp [World.pollCompletion, hs, Outcome.map, Outcome.after, ha] at hv

end Remembers

theorem expired_enter_none {p : Wait} (hv : (H.watched.enter w p).value = none) :
    (H.watched.enter w p).world.expired = false := by
  cases p with
  | nap us => exact (remembers_beginDelay us).pollNap_none hv
  | completion d us => exact (remembers_beginDelay us).pollCompletion_none hv

theorem expired_revisit_none {p : Wait} (hv : (H.watched.revisit w p).value = none) :
    (H.watched.revisit w p).world.expired = false := by
  cases p with
  | nap us => exact remembers_lookAtDelay.pollNap_none hv
  | completion d us => exact remembers_lookAtDelay.pollCompletion_none hv

theorem expired_enter_some {p : Wait} {x : p.Answer} (hv : (H.watched.enter w p).value = some x)
    (hx : p.Elapsed x) : (H.watched.enter w p).world.expired = true := by
  cases p with
  | nap us => exact (remembers_beginDelay us).pollNap_some hv
  | completion d us =>
    obtain rfl : x = none := hx
    exact (remembers_beginDelay us).pollCompletion_some hv

theorem expired_revisit_some {p : Wait} {x : p.Answer}
    (hv : (H.watched.revisit w p).value = some x) (hx : p.Elapsed x) :
    (H.watched.revisit w p).world.expired = true := by
  cases p with
  | nap us => exact remembers_lookAtDelay.pollNap_some hv
  | completion d us =>
    obtain rfl : x = none := hx
    exact remembers_lookAtDelay.pollCompletion_some hv

end Looks

section Dropping
variable {w w' : World (σ × Bool)}

/-- Where a poll stops, the delay is not over. -/
theorem Position.Reaches.expired_stopped {s : Position α} {p : Pause α} {tr : Trace}
    (hr : Reaches H.watched s w tr (.stopped p) w')
    (hs : ∀ q, s = .stopped q → w.expired = false) : w'.expired = false := by
  generalize ht : (Position.stopped p : Position α) = t at hr
  induction hr with
  | refl s w => exact hs p ht.symm
  | head first _ ih =>
    refine ih ?_ ht
    rintro q rfl
    cases first with
    | stop p undo next w waits => exact expired_enter_none waits
    | stay p w waits => exact expired_revisit_none waits

theorem Pause.expired_dropped {p : Pause α} {polls : Nat} (hw : w.expired = false)
    (hv : (p.drive H.watched polls w).value = .dropped) :
    (p.drive H.watched polls w).world.expired = false := by
  induction polls generalizing p w with
  | zero => exact (expired_performAll w p.undo).trans hw
  | succ polls ih =>
    have polled := p.poll_reaches H.watched w
    cases hp : (p.poll H.watched w).value with
    | finished a => simp [Pause.drive, hp, Outcome.map] at hv
    | paused q =>
      rw [hp] at polled
      simp only [Pause.drive, hp, Outcome.after] at hv ⊢
      exact ih (polled.expired_stopped fun _ _ => hw) hv

/-- No call waits on once its delay is over. -/
theorem Call.expired_dropped {call : Call α} {polls : Nat} (hw : w.expired = false)
    (hv : (call.drive H.watched w polls).value = .dropped) :
    (call.drive H.watched w polls).world.expired = false := by
  cases polls with
  | zero => exact hw
  | succ polls =>
    have advanced := call.advance_reaches H.watched w
    cases hp : (call.advance H.watched w).value with
    | finished a => simp [Call.drive, hp, Outcome.map] at hv
    | paused p =>
      rw [hp] at advanced
      simp only [Call.drive, hp, Outcome.after] at hv ⊢
      refine Pause.expired_dropped (advanced.expired_stopped ?_) hv
      rintro q ⟨⟩

end Dropping

section Expiring
variable {F : α → Prop} {K : Prop}

/-- Wherever the call ends with an answer in `F`, it has gone on from the end of a delay since the
engine of direction `d` was started. `K` says that it has so far. -/
def Call.Expires (d : Direction) (F : α → Prop) : Call α → Prop → Prop
  | .done a, K => F a → K
  | .act a next, K => ∀ x, (next x).Expires d F (K ∧ ¬ (Event.acted a x).Starts d)
  | .wait p _ next, _ => ∀ x, (next x).Expires d F (p.Elapsed x)

def Position.Expires (d : Direction) (F : α → Prop) (K : Prop) : Position α → Prop
  | .running c => c.Expires d F K
  | .stopped p => ∀ x, (p.next x).Expires d F (p.wait.Elapsed x)

/-- A call that ends with an answer in `F` after its engine was started has found its delay over.
`begun` says that the engine was started before. -/
theorem Position.Reaches.expires {s : Position α} {w w' : World (σ × Bool)} {tr : Trace} {a : α}
    {begun : Prop} (hr : Reaches H.watched s w tr (.running (.done a)) w') (he : s.Expires d F K)
    (ha : F a) (hk : K → begun → w.expired = true) (hb : begun ∨ ∃ e ∈ tr, e.Starts d) :
    w'.expired = true := by
  generalize ht : (Position.running (.done a) : Position α) = t at hr
  induction hr generalizing K begun with
  | refl s w =>
    subst ht
    rcases hb with hb | ⟨e, he, -⟩
    · exact hk (he ha) hb
    · cases he
  | @head s t u w w' w'' tr rest first later ih =>
    cases first with
    | act b next w =>
      have started := starts_later (d := d) hb (.inl : begun → begun ∨ _) fun e he hs =>
        .inr (starts_of_perform he hs)
      refine ih (he _) ?_ started ht
      rintro ⟨known, unstarted⟩ begun
      rw [expired_perform]
      exact hk known (begun.resolve_right unstarted)
    | pass p undo next w x ended =>
      have started := starts_later hb id fun e he hs => absurd hs (unstarted_enter w p e he)
      exact ih (he x) (fun elapsed _ => expired_enter_some ended elapsed) started ht
    | stop p undo next w =>
      have started := starts_later hb id fun e he hs => absurd hs (unstarted_enter w p e he)
      exact ih (K := False) he nofun started ht
    | resume p w x ended =>
      have started := starts_later hb id fun e he hs => absurd hs (unstarted_revisit w p.wait e he)
      exact ih (he x) (fun elapsed _ => expired_revisit_some ended elapsed) started ht
    | stay p w =>
      have started := starts_later hb id fun e he hs => absurd hs (unstarted_revisit w p.wait e he)
      exact ih (K := False) he nofun started ht

namespace Call

theorem Expires.mono {K' : Prop} {call : Call α} (he : call.Expires d F K) (hk : K → K') :
    call.Expires d F K' := by
  induction call generalizing K K' with
  | done a => exact fun ha => hk (he ha)
  | act a next ih => exact fun x => ih x (he x) (And.imp_left hk)
  | wait p undo next ih => exact he

/-- A first part that sleeps at most and starts no engine. -/
theorem Uses.expires {F : β → Prop} {W : Wait → List Action → Prop} {call : Call α}
    {f : α → Call β} (hu : call.Uses (·.StartsNot d) W) (hw : ∀ p undo, W p undo → p.IsNap)
    (hf : ∀ a, (f a).Expires d F K) : (call >>= f).Expires d F K := by
  induction call with
  | done a => exact hf a
  | act a next ih => exact fun x => (ih x (hu.2 x)).mono fun hk => ⟨hk, hu.1 x⟩
  | wait p undo next ih =>
    obtain ⟨hp, rest⟩ := hu
    intro x
    refine (ih x (rest x)).mono fun _ => ?_
    cases p with
    | nap us => trivial
    | completion e us => exact (hw _ _ hp).elim

theorem expires_perform {a : Action} {f : a.Answer → Call β} {F : β → Prop} (ha : a.StartsNot d)
    (hf : ∀ x, (f x).Expires d F K) : (perform a >>= f).Expires d F K :=
  Uses.expires (W := fun _ _ => False) ⟨ha, fun _ => trivial⟩ (fun _ _ => False.elim) hf

/-- A first action that may start the engine. -/
theorem expires_act {a : Action} {next : a.Answer → Call α}
    (hn : ∀ x, (next x).Expires d F False) : (act a next).Expires d F K :=
  fun x => (hn x).mono False.elim

end Call

theorem expires_giveUp {a : α} (ha : F a → K) :
    (do Call.performAll (Action.abandon d); Call.reset d; return a : Call α).Expires d F K := by
  have given : (Call.performAll (Action.abandon d)).Uses (·.StartsNot d) fun _ _ => False :=
    Call.uses_performAll (by cases d <;> simp [Action.abandon, Action.setIdle, Event.Starts,
      Command.Starts])
  refine given.expires (fun _ _ => False.elim) fun _ => ?_
  exact Call.expires_perform (by simp [Event.Starts, Command.Starts]) fun _ => ha

section Calls
variable {words : List Word} {bytes : List Byte} {len timeout : Nat}

theorem sendDma_expires : (sendDma words timeout).Expires .tx (· = .error .timedOut) K := by
  refine Call.expires_act fun _ => Call.expires_act fun _ => Call.expires_act fun _ =>
    Call.expires_act fun _ => Call.expires_act fun _ => Call.expires_act fun _ =>
    Call.expires_act fun _ => ?_
  intro r
  cases r with
  | none => exact expires_giveUp fun _ => rfl
  | some r =>
    cases r with
    | done => exact Call.expires_act fun _ => nofun
    | error => exact expires_giveUp nofun

theorem sendWords_expires (hm : c.mode = .dma) :
    (sendWords c words timeout).Expires .tx (· = .error .timedOut) True := by
  have turn : (takeBusTurn c).Uses (·.StartsNot .tx) fun p _ => p.IsNap :=
    takeBusTurn_uses (by simp) (by simp) (by simp) fun _ => trivial
  refine Call.expires_perform (by simp) fun state => ?_
  split
  · exact fun _ => trivial
  refine Call.expires_perform (by simp) fun status => ?_
  split
  · exact fun _ => trivial
  refine turn.expires (fun _ _ hw => hw) fun taken => ?_
  split
  · rw [hm]
    exact sendDma_expires
  · exact fun _ => trivial

theorem send_expires (hm : c.mode = .dma) :
    (send c bytes timeout).Expires .tx (· = .error .timedOut) True := by
  unfold send
  split
  · exact fun _ => trivial
  · exact fun _ => trivial
  · rw [hm]
    refine Call.expires_perform (by simp) fun capacity => ?_
    split
    · exact fun _ => trivial
    · exact sendWords_expires hm

theorem finishDma_expires :
    (finishDma c len timeout).Expires .rx (· = .error .timedOut) K := by
  refine Call.expires_act fun _ => ?_
  intro r
  cases r with
  | none => exact expires_giveUp fun _ => rfl
  | some r =>
    cases r with
    | done => exact Call.expires_act fun _ => Call.expires_act fun _ => nofun
    | error => exact expires_giveUp nofun

theorem finishReceive_expires (hm : c.mode = .dma) :
    (finishReceive c timeout).Expires .rx (· = .error .timedOut) K := by
  refine Call.expires_act fun expected => ?_
  cases expected with
  | none => exact nofun
  | some len =>
    refine Call.expires_act fun _ => ?_
    split
    · exact nofun
    · rw [hm]
      exact finishDma_expires

end Calls

/-- A driven call that ends with an answer in `F` has found its delay over. -/
theorem Call.Expires.elapses {call : Call α} {w : World σ} {polls left : Nat} {a : α}
    (he : call.Expires d F K) (ha : F a)
    (hk : K → ∃ e ∈ (call.drive H w polls).trace, e.Starts d)
    (hv : (call.drive H w polls).value = .finished a left) : call.elapses H w polls = true := by
  rw [← call.drive_watched H w polls] at hv hk
  have driven := Call.drive_reaches (H := H.watched) (w := w.watched) hv
  have started : ¬ K ∨ ∃ e ∈ (call.drive H.watched w.watched polls).trace, e.Starts d := by
    by_cases known : K
    · exact .inr (hk known)
    · exact .inl known
  exact driven.expires he ha (fun known begun => (begun known).elim) started

/-- A call that is dropped has not. -/
theorem Call.elapses_of_dropped {call : Call α} {w : World σ} {polls : Nat}
    (hv : (call.drive H w polls).value = .dropped) : call.elapses H w polls = false := by
  rw [← call.drive_watched H w polls] at hv
  exact Call.expired_dropped rfl hv

end Expiring

end Joybus.Transceiver
