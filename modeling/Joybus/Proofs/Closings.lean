import Joybus.Proofs.Driving
import Joybus.Proofs.Failures

/-! What a call does last: one that fails after it has started an engine comes to a position from
where it only cleans up. -/
namespace Joybus.Transceiver

open Position (Step Reaches)

variable {σ α β : Type} {H : Hardware σ} {d : Direction} {c : LinkConfig}

section Starts
variable {w : World σ} {e : Event}

/-- Nothing starts the engine of direction `d`. -/
def Trace.Unstarted (d : Direction) (h : Trace) : Prop := ∀ e ∈ h, ¬ e.Starts d

theorem unstarted_marks (l : Link) (ms : List Mark) : (l.markTrace ms).Unstarted d := by
  intro e he
  obtain ⟨m, s, rfl⟩ := Link.mem_markTrace he
  exact id

theorem unstarted_consumption (e : Direction) (r : Option Completion.Report) :
    (consumption e r).Unstarted d := by
  cases r <;> simp [consumption, Trace.Unstarted]

theorem unstarted_beginDelay (us : Nat) (w : World σ) :
    (H.beginDelay us w).trace.Unstarted d :=
  List.forall_mem_cons.2 ⟨id, unstarted_marks _ _⟩

theorem unstarted_pollCompletion {delay : World σ → Outcome σ Bool}
    (hd : ∀ w, (delay w).trace.Unstarted d) (w : World σ) (e : Direction) :
    (w.pollCompletion e delay).trace.Unstarted d := by
  have seen : (w.lookAtCell e).trace.Unstarted d := unstarted_consumption e _
  have looked := List.forall_mem_append.2 ⟨seen, hd (w.lookAtCell e).world⟩
  unfold World.pollCompletion
  simp only
  split
  · exact seen
  · split
    · exact List.forall_mem_append.2 ⟨looked, unstarted_consumption e _⟩
    · exact looked

/-- No look at a wait starts an engine. -/
theorem unstarted_enter (w : World σ) (p : Wait) : (H.enter w p).trace.Unstarted d := by
  cases p with
  | nap us => exact unstarted_beginDelay us w
  | completion e us => exact unstarted_pollCompletion (unstarted_beginDelay us) w e

theorem unstarted_revisit (w : World σ) (p : Wait) : (H.revisit w p).trace.Unstarted d := by
  cases p with
  | nap us => exact unstarted_marks _ _
  | completion e us => exact unstarted_pollCompletion (fun _ => unstarted_marks _ _) w e

/-- What an action starts, it starts itself. -/
theorem starts_of_perform {a : Action} (he : e ∈ (H.perform w a).trace) (hs : e.Starts d) :
    (Event.acted a (H.perform w a).value).Starts d := by
  cases a with
  | command c =>
    rcases List.mem_cons.1 he with rfl | he
    · exact hs
    · exact absurd hs (unstarted_marks _ _ e he)
  | _ =>
    rw [List.mem_singleton.1 he] at hs
    exact hs

/-- What was started before or is started now or later: after the first part of a trace only what is
started later is left. -/
theorem starts_later {begun begun' : Prop} {tr rest : Trace}
    (hb : begun ∨ ∃ e ∈ tr ++ rest, e.Starts d) (earlier : begun → begun')
    (now : ∀ e ∈ tr, e.Starts d → begun') : begun' ∨ ∃ e ∈ rest, e.Starts d := by
  rcases hb with hb | ⟨e, he, hs⟩
  · exact .inl (earlier hb)
  · rcases List.mem_append.1 he with he | he
    · exact .inl (now e he hs)
    · exact .inr ⟨e, he, hs⟩

end Starts

section Closing
variable {as : List Action} {F : α → Prop} {begun : Prop}

/-- Performs the actions and ends. -/
def Call.closing (as : List Action) (a : α) : Call α := Call.performAll as >>= fun _ => .done a

/-- What a call that fails performs last, if it has an engine to stop: the transfer is given up and
the program reset. -/
def Action.retreat (d : Direction) : List Action := Action.abandon d ++ [.command (.reset d)]

/-- Wherever the call ends with an answer in `F` and the engine of direction `d` was started, it
performs `as` last. `begun` says that it was started before. -/
def Call.Closes (d : Direction) (as : List Action) (F : α → Prop) : Call α → Prop → Prop
  | .done a, begun => begun → ¬ F a
  | .act a next, begun =>
    (∃ v, F v ∧ Call.act a next = Call.closing as v) ∨
      ∀ x, (next x).Closes d as F (begun ∨ (Event.acted a x).Starts d)
  | .wait _ _ next, begun => ∀ x, (next x).Closes d as F begun

def Position.Closes (d : Direction) (as : List Action) (F : α → Prop) (begun : Prop) :
    Position α → Prop
  | .running c => c.Closes d as F begun
  | .stopped p => ∀ x, (p.next x).Closes d as F begun

/-- From its closing on a call has but one way to go. -/
theorem Position.Reaches.closing {w w' : World σ} {tr : Trace} {v a : α}
    (hr : Reaches H (.running (Call.closing as v)) w tr (.running (.done a)) w') :
    v = a ∧ tr = (H.performAll w as).trace ∧ w' = (H.performAll w as).world := by
  induction as generalizing w tr with
  | nil =>
    cases hr with
    | refl => exact ⟨rfl, rfl, rfl⟩
    | head first _ => cases first
  | cons b as ih =>
    cases hr with
    | head first rest =>
      cases first with
      | act =>
        obtain ⟨same, trace, world⟩ := ih rest
        exact ⟨same, by rw [trace]; rfl, world⟩

/-- A call that ends with an answer in `F` after it has started its engine comes to its closing. -/
theorem Position.Reaches.closes {s : Position α} {w w' : World σ} {tr : Trace} {a : α}
    (hr : Reaches H s w tr (.running (.done a)) w') (hc : s.Closes d as F begun) (ha : F a)
    (hb : begun ∨ ∃ e ∈ tr, e.Starts d) :
    ∃ w₀ before, Reaches H s w before (.running (Call.closing as a)) w₀ ∧
      tr = before ++ (H.performAll w₀ as).trace ∧ w' = (H.performAll w₀ as).world := by
  generalize ht : (Position.running (.done a) : Position α) = t at hr
  induction hr generalizing begun with
  | refl s w =>
    subst ht
    rcases hb with hb | ⟨e, he, -⟩
    · exact absurd ha (hc hb)
    · cases he
  | @head s t u w w' w'' tr rest first later ih =>
    -- The steps after the first one come to the closing, which the first one is not part of.
    have onward : ∀ {begun : Prop}, t.Closes d as F begun →
        (begun ∨ ∃ e ∈ rest, e.Starts d) →
        ∃ w₀ before, Reaches H s w before (.running (Call.closing as a)) w₀ ∧
          tr ++ rest = before ++ (H.performAll w₀ as).trace ∧
          w'' = (H.performAll w₀ as).world := by
      intro begun closes started
      obtain ⟨w₀, before, reached, trace, world⟩ := ih closes started ht
      exact ⟨w₀, tr ++ before, .head first reached, by simp [trace], world⟩
    cases first with
    | act b next w =>
      rcases hc with ⟨v, -, closing⟩ | open_
      · subst ht
        have whole := Reaches.head (.act b next w) later
        rw [closing] at whole
        obtain ⟨rfl, trace, world⟩ := whole.closing
        exact ⟨w, [], by rw [closing]; exact .refl _ w, trace, world⟩
      · exact onward (open_ _) (starts_later hb .inl fun e he hs => .inr (starts_of_perform he hs))
    | pass p undo next w x =>
      exact onward (hc x) (starts_later hb id fun e he hs => absurd hs (unstarted_enter w p e he))
    | stop p undo next w =>
      exact onward hc (starts_later hb id fun e he hs => absurd hs (unstarted_enter w p e he))
    | resume p w x =>
      exact onward (hc x)
        (starts_later hb id fun e he hs => absurd hs (unstarted_revisit w p.wait e he))
    | stay p w =>
      exact onward hc
        (starts_later hb id fun e he hs => absurd hs (unstarted_revisit w p.wait e he))

namespace Call

theorem closing_bind (as : List Action) (a : α) (f : α → Call β) :
    (closing as a >>= f) = performAll as >>= fun _ => f a := by
  induction as with
  | nil => rfl
  | cons b as ih => exact congrArg (act b) (funext fun _ => ih)

theorem Closes.mono {begun' : Prop} {call : Call α} (hc : call.Closes d as F begun)
    (hb : begun' → begun) : call.Closes d as F begun' := by
  induction call generalizing begun begun' with
  | done a => exact fun h => hc (hb h)
  | act a next ih =>
    rcases hc with closing | next
    · exact .inl closing
    · exact .inr fun x => ih x (next x) (Or.imp_left hb)
  | wait p undo next ih => exact fun x => ih x (hc x) hb

/-- A first part that starts no engine. -/
theorem Uses.closes {F : β → Prop} {W : Wait → List Action → Prop} {call : Call α}
    {f : α → Call β} (hu : call.Uses (·.StartsNot d) W) (hf : ∀ a, (f a).Closes d as F begun) :
    (call >>= f).Closes d as F begun := by
  induction call with
  | done a => exact hf a
  | act a next ih =>
    refine .inr fun x => (ih x (hu.2 x)).mono ?_
    rintro (begun | starts)
    · exact begun
    · exact absurd starts (hu.1 x)
  | wait p undo next ih => exact fun x => ih x (hu.2 x)

theorem closes_perform {a : Action} {f : a.Answer → Call β} {F : β → Prop} (ha : a.StartsNot d)
    (hf : ∀ x, (f x).Closes d as F begun) : (perform a >>= f).Closes d as F begun :=
  Uses.closes (W := fun _ _ => True) ⟨ha, fun _ => trivial⟩ hf

/-- A first action that may start the engine. -/
theorem closes_act {a : Action} {next : a.Answer → Call α}
    (hn : ∀ x, (next x).Closes d as F True) : (act a next).Closes d as F begun :=
  .inr fun x => (hn x).mono fun _ => trivial

/-- A second part that goes on only where the first has not failed. -/
theorem Closes.bind {G : β → Prop} {call : Call α} {f : α → Call β}
    (hc : call.Closes d as F begun) (failed : ∀ a, F a → ∃ b, G b ∧ f a = .done b)
    (rest : ∀ a, ¬ F a → (f a).Closes d as G True) : (call >>= f).Closes d as G begun := by
  induction call generalizing begun with
  | done a =>
    by_cases ha : F a
    · obtain ⟨b, -, ends⟩ := failed a ha
      rw [bind_done, ends]
      exact fun h => absurd ha (hc h)
    · exact (rest a ha).mono fun _ => trivial
  | act a next ih =>
    rcases hc with ⟨v, hv, closing⟩ | next
    · obtain ⟨b, hb, ends⟩ := failed v hv
      have rest : (act a next >>= f) = Call.closing as b := by
        rw [closing, closing_bind, ends]
        rfl
      exact .inl ⟨b, hb, rest⟩
    · exact .inr fun x => ih x (next x)
  | wait p undo next ih => exact fun x => ih x (hc x)

theorem Closes.map {F : β → Prop} {g : α → β} {call : Call α}
    (hc : call.Closes d as (fun a => F (g a)) begun) : (g <$> call).Closes d as F begun :=
  hc.bind (fun a ha => ⟨g a, ha, rfl⟩) fun _ ha _ => ha

end Call

end Closing

section Requests
variable {words : List Word} {len timeout : Nat} {begun : Prop}

theorem closes_retreat {F : α → Prop} {a : α} (ha : F a) :
    (do Call.performAll (Action.abandon d); Call.reset d; return a : Call α).Closes d
      (Action.retreat d) F begun :=
  .inl ⟨a, ha, rfl⟩

theorem sendDma_closes :
    (sendDma words timeout).Closes .tx (Action.retreat .tx) (fun r => (Reply.sent r).Failed)
      begun := by
  refine Call.closes_act fun _ => Call.closes_act fun _ => Call.closes_act fun _ =>
    Call.closes_act fun _ => Call.closes_act fun _ => Call.closes_act fun _ =>
    Call.closes_act fun _ => ?_
  intro r
  cases r with
  | none => exact closes_retreat trivial
  | some r =>
    cases r with
    | done => exact Call.closes_act fun _ _ => id
    | error => exact closes_retreat trivial

theorem sendWords_closes (hm : c.mode = .dma) :
    (sendWords c words timeout).Closes .tx (Action.retreat .tx) (fun r => (Reply.sent r).Failed)
      False := by
  have turn : (takeBusTurn c).Uses (·.StartsNot .tx) fun _ _ => True :=
    takeBusTurn_uses (by simp) (by simp) (by simp) fun _ => trivial
  refine Call.closes_perform (by simp) fun state => ?_
  split
  · exact fun begun => begun.elim
  refine Call.closes_perform (by simp) fun status => ?_
  split
  · exact fun begun => begun.elim
  refine turn.closes fun taken => ?_
  split
  · rw [hm]
    exact sendDma_closes
  · exact fun begun => begun.elim

theorem send_closes (hm : c.mode = .dma) (bytes : List Byte) :
    (send c bytes timeout).Closes .tx (Action.retreat .tx) (fun r => (Reply.sent r).Failed)
      False := by
  unfold send
  split
  · exact fun begun => begun.elim
  · exact fun begun => begun.elim
  · rw [hm]
    refine Call.closes_perform (by simp) fun capacity => ?_
    split
    · exact fun begun => begun.elim
    · exact sendWords_closes hm

theorem armDma_closes :
    (armDma c len).Closes .rx (Action.retreat .rx) (fun r => (Reply.armed r).Failed) begun := by
  have published : (publish c len (Action.abandon .rx)).Uses (·.StartsNot .rx) fun _ _ => True :=
    publish_uses (by simp) fun _ => trivial
  refine Call.closes_perform (by simp) fun capacity => ?_
  split
  · exact fun _ => id
  refine Call.closes_act fun _ => Call.closes_act fun _ => Call.closes_act fun _ => ?_
  refine published.closes fun taken => ?_
  split
  · exact Call.closes_act fun _ _ => id
  · exact closes_retreat trivial

theorem armReceive_closes (hm : c.mode = .dma) :
    (armReceive c len).Closes .rx (Action.retreat .rx) (fun r => (Reply.armed r).Failed)
      begun := by
  unfold armReceive
  split
  · exact fun _ => id
  refine Call.closes_perform (by simp) fun expected => ?_
  split
  · exact fun _ => id
  refine Call.closes_perform (by simp) fun status => ?_
  split
  · exact fun _ => id
  split
  · exact Call.closes_act fun _ _ => id
  · rw [hm]
    exact armDma_closes

theorem finishDma_closes :
    (finishDma c len timeout).Closes .rx (Action.retreat .rx)
      (fun r => (Reply.received r).Failed) begun := by
  refine Call.closes_act fun _ => ?_
  intro r
  cases r with
  | none => exact closes_retreat trivial
  | some r =>
    cases r with
    | done => exact Call.closes_act fun _ => Call.closes_act fun _ _ => id
    | error => exact closes_retreat trivial

theorem finishReceive_closes (hm : c.mode = .dma) :
    (finishReceive c timeout).Closes .rx (Action.retreat .rx)
      (fun r => (Reply.received r).Failed) begun := by
  refine Call.closes_perform (by simp) fun expected => ?_
  cases expected with
  | none => exact fun _ => id
  | some len =>
    refine Call.closes_act fun _ => ?_
    split
    · exact fun _ => id
    · rw [hm]
      exact finishDma_closes

theorem receive_closes (hm : c.mode = .dma) :
    (receive c len timeout).Closes .rx (Action.retreat .rx) (fun r => (Reply.received r).Failed)
      begun := by
  refine (armReceive_closes hm).bind ?_ ?_
  · intro r failed
    cases r with
    | error e => exact ⟨.error e, by cases e <;> exact failed, rfl⟩
    | ok => exact failed.elim
  · intro r unfailed
    cases r with
    | error e => exact fun _ failed => unfailed (by cases e <;> exact failed)
    | ok => exact finishReceive_closes hm

/-- A request of one direction that fails after its engine was started cleans up last. The wait for
an armed receive starts none: its engine was started when it was armed. -/
theorem Request.closes {r : Request} (hd : r.side? = some d) (hm : c.mode = .dma) :
    (r.call c).Closes d (Action.retreat d) Reply.Failed (∃ timeout, r = .finish timeout) := by
  cases r with
  | send bytes timeout =>
    cases Option.some.inj hd
    refine ((send_closes hm bytes).mono ?_).map
    simp
  | arm len =>
    cases Option.some.inj hd
    exact (armReceive_closes hm).map
  | finish timeout =>
    cases Option.some.inj hd
    exact (finishReceive_closes hm).map
  | receive len timeout =>
    cases Option.some.inj hd
    exact (receive_closes hm).map
  | exchange bytes len timeout => simp [Request.side?] at hd

/-- The request comes to where only its cleanup is left. -/
theorem Request.retreats {I : σ → Prop} {s : Session σ} {r : Request} {polls left : Nat}
    {reply : Reply} (hI : H.Maintains I) (hs : I s.world.hardware) (hd : r.side? = some d)
    (hm : s.config.mode = .dma)
    (hv : (s.drive H r.call polls).value = .finished reply left) (hf : reply.Failed)
    (hb : (∃ e ∈ (s.drive H r.call polls).trace, e.Starts d) ∨ ∃ timeout, r = .finish timeout) :
    ∃ w₀ before, I w₀.hardware ∧
      Reaches H (.running (r.call s.config)) s.world before
        (.running (Call.closing (Action.retreat d) reply)) w₀ ∧
      (s.drive H r.call polls).trace = before ++ (H.performAll w₀ (Action.retreat d)).trace ∧
      (s.drive H r.call polls).world = (H.performAll w₀ (Action.retreat d)).world := by
  have driven := Call.drive_reaches hv
  obtain ⟨w₀, before, reached, trace, world⟩ := driven.closes (Request.closes hd hm) hf hb.symm
  exact ⟨w₀, before, hI.reaches reached hs, reached, trace, world⟩

end Requests

end Joybus.Transceiver
