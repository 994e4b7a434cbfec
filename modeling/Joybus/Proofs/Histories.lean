import Joybus.Proofs.Invariants

/-! Histories read from the front: what stands before each event, and what further events keep. -/
namespace Joybus.Transceiver

variable {J : Trace → Event → Prop} {E : Event → Prop} {h ev : Trace} {e : Event}

/-- Something else than an action of the call. -/
def Event.Passive : Event → Prop
  | .acted _ _ => False
  | .marked _ _ | .consumed _ | .delayed _ => True

namespace Trace

/-- Every event of the history is justified by what came before it. -/
def Each (J : Trace → Event → Prop) (h : Trace) : Prop :=
  ∀ pre e post, h = pre ++ e :: post → J pre e

theorem each_nil : Each J [] := by
  intro pre e post he
  simp at he

theorem each_append : Each J (h ++ ev) ↔ Each J h ∧ Each (fun pre => J (h ++ pre)) ev := by
  constructor
  · intro hj
    refine ⟨?_, ?_⟩
    · intro pre e post he
      exact hj pre e (post ++ ev) (by simp [he])
    · intro pre e post he
      exact hj (h ++ pre) e post (by simp [he])
  · rintro ⟨hh, hv⟩ pre e post he
    rcases List.append_eq_append_iff.1 he with ⟨mid, rfl, hm⟩ | ⟨mid, rfl, hm⟩
    · exact hv mid e post hm
    · cases mid with
      | nil => simpa using hv [] e post (by simpa using hm.symm)
      | cons x mid =>
        obtain ⟨rfl, -⟩ := List.cons_eq_cons.1 hm
        exact hh pre e mid rfl

theorem each_singleton : Each J [e] ↔ J [] e := by
  constructor
  · intro hj
    exact hj [] e [] rfl
  · intro hj pre x post hx
    cases pre with
    | nil =>
      obtain ⟨rfl, -⟩ := List.cons_eq_cons.1 hx
      exact hj
    | cons y pre => simp at hx

instance decidableEach [∀ pre e, Decidable (J pre e)] (h : Trace) : Decidable (Each J h) :=
  decidable_of_iff (∀ n (hn : n < h.length), J (h.take n) h[n]) <| by
    constructor
    · rintro hj pre e post rfl
      simpa using hj pre.length (by simp)
    · intro hj n hn
      exact hj (h.take n) h[n] (h.drop (n + 1)) (by simp)

theorem each_concat : Each J (h ++ [e]) ↔ Each J h ∧ J h e := by
  rw [each_append, each_singleton, List.append_nil]

/-- Every event in `S` is followed by one in `E`. -/
def Followed (S E : Event → Prop) (h : Trace) : Prop :=
  ∀ pre e post, h = pre ++ e :: post → S e → ∃ x ∈ post, E x

theorem followed_of_none {S : Event → Prop} (hn : ∀ e ∈ h, ¬ S e) : h.Followed S E := by
  rintro pre e post rfl hs
  exact (hn e (by simp) hs).elim

/-- One more event opens nothing, and closes what is open, if anything is. -/
theorem followed_concat {S : Event → Prop} (hn : ¬ S e) (hs : E e ∨ h.Followed S E) :
    Followed S E (h ++ [e]) := by
  intro pre x post hx hst
  rcases List.eq_nil_or_concat post with rfl | ⟨mid, y, rfl⟩
  · obtain ⟨-, he⟩ := List.append_inj' hx rfl
    obtain rfl := List.singleton_inj.1 he
    exact (hn hst).elim
  · rw [List.concat_eq_append, ← List.cons_append, ← List.append_assoc] at hx
    obtain ⟨rfl, he⟩ := List.append_inj' hx rfl
    obtain rfl := List.singleton_inj.1 he
    rcases hs with hs | hs
    · exact ⟨e, by simp, hs⟩
    · obtain ⟨z, hz, hzs⟩ := hs pre x mid rfl hst
      exact ⟨z, by simp [hz], hzs⟩

end Trace

/-- A property of the history alone, kept by further events of the kind `E`, which all passive ones
are of. -/
theorem Keeps.of_trace {P : Trace → Prop} (passive : ∀ e, e.Passive → E e)
    (concat : ∀ h e, E e → P h → P (h ++ [e])) :
    Keeps (fun a => ∀ x, E (.acted a x)) (fun _ => True) fun _ => P where
  act _ ha x _ h hp := concat h _ (ha x) hp
  mark _ _ h hp := concat h _ (passive _ trivial) hp
  wake _ _ _ hp := hp
  delay _ _ h hp := concat h _ (passive _ trivial) hp
  take _ _ _ _ h _ hp := concat h _ (passive _ trivial) hp

/-- What holds of every event so far holds on, as long as further ones are of the same kind. -/
theorem keeps_forall (passive : ∀ e, e.Passive → E e) :
    Keeps (fun a => ∀ x, E (.acted a x)) (fun _ => True) fun _ h => ∀ e ∈ h, E e := by
  refine .of_trace (P := fun h => ∀ e ∈ h, E e) passive ?_
  intro h e he hp
  exact List.forall_mem_append.2 ⟨hp, List.forall_mem_singleton.2 he⟩

/-- What happened once stays in the history. -/
theorem keeps_mem (E : Event → Prop) :
    Keeps (fun _ => True) (fun _ => True) fun _ h => ∃ e ∈ h, E e := by
  refine (Keeps.of_trace (E := fun _ => True) (P := fun h => ∃ e ∈ h, E e) (fun _ _ => trivial)
    ?_).weaken (fun _ _ _ => trivial) fun _ hd => hd
  rintro h e - ⟨x, hx, he⟩
  exact ⟨x, List.mem_append_left _ hx, he⟩

end Joybus.Transceiver
