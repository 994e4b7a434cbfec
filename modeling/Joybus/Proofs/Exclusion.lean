import Joybus.Proofs.Phases

/-! A direction has one transfer at a time: its engine starts on a cell found unused and just armed,
and never again before the transfer is stopped or its report consumed. Nor is its buffer used before
that, so it does not matter when the engine reads or writes it. -/
namespace Joybus.Transceiver

variable {σ : Type} {d : Direction} {h : Trace} {e : Event}

/-- A transfer of direction `d` is over: its engine is stopped, or its report consumed. -/
def Event.Settles (d : Direction) : Event → Prop
  | .acted (.command (.abort e)) _ => e = d
  | .consumed m => m.dir = d
  | _ => False

/-- The buffer of direction `d` is written or read. -/
def Event.Touches (d : Direction) : Event → Prop
  | .acted a _ => a.Touches d
  | _ => False

/-- The last thing done but for notes was to arm the cell, which was found unused before. -/
def Trace.JustArmed (d : Direction) (h : Trace) : Prop :=
  ∃ pre post, h = pre ++ .acted (.arm d) () :: post ∧
    (∀ e ∈ post, ∃ a x, e = .acted a x ∧ a.Notes) ∧ .acted (.status d) .notStarted ∈ pre

/-- Every transfer of direction `d` that was started is over. -/
def Trace.Settled (d : Direction) (h : Trace) : Prop :=
  ∀ pre e post, h = pre ++ e :: post → e.Starts d → ∃ x ∈ post, x.Settles d

theorem not_starts_of_passive (he : e.Passive) : ¬ e.Starts d := by
  cases e with
  | acted a x => exact he.elim
  | _ => exact id

theorem not_starts_of_not_handles {a : Action} (ha : ¬ a.Handles d) (x : a.Answer) :
    ¬ (Event.acted a x).Starts d := by
  cases a with
  | command c => cases c <;> first | exact ha | exact id
  | _ => exact id

theorem not_starts_of_notes {a : Action} (ha : a.Notes) (x : a.Answer) :
    ¬ (Event.acted a x).Starts d := by
  cases a with
  | command c => exact ha.elim
  | _ => exact id

/-- What further events other than starts of `d` keep. -/
theorem keeps_unless_started {P : Trace → Prop}
    (concat : ∀ h e, ¬ e.Starts d → P h → P (h ++ [e])) :
    Keeps (¬ ·.Handles d) (· ≠ d) fun _ => P :=
  (Keeps.of_trace (fun _ => not_starts_of_passive) concat).weaken
    (fun _ ha x => not_starts_of_not_handles ha x) fun _ _ => trivial

/-- Nor does what happens after an engine is stopped, until its cell is disarmed. -/
theorem disarmed_unless_started {P : Trace → Prop} {l : Link}
    (concat : ∀ h e, ¬ e.Starts d → P h → P (h ++ [e])) (ms : List Mark)
    (hp : P (h ++ [.acted (.command (.abort d)) ()])) :
    P (h ++ .acted (.command (.abort d)) () :: l.markTrace ms ++ [.acted (.disarm d) ()]) := by
  have hm := (keeps_unless_started concat).command (l := l) (c := .abort d) ms hp
  exact concat _ _ id hm

theorem Trace.Each.concat_unstarted {J : Trace → Prop}
    (hj : h.Each fun pre e => e.Starts d → J pre) (he : ¬ e.Starts d) :
    Trace.Each (fun pre e => e.Starts d → J pre) (h ++ [e]) :=
  Trace.each_concat.2 ⟨hj, fun hs => (he hs).elim⟩

theorem Trace.JustArmed.note {a : Action} (hj : h.JustArmed d) (ha : a.Notes) (x : a.Answer) :
    Trace.JustArmed d (h ++ [.acted a x]) := by
  obtain ⟨pre, post, rfl, hp, hs⟩ := hj
  refine ⟨pre, post ++ [.acted a x], by simp, ?_, hs⟩
  intro e he
  rcases List.mem_append.1 he with he | he
  · exact hp e he
  · exact ⟨a, x, List.mem_singleton.1 he, ha⟩

/-- A call's way to a start: it checks the cell, arms it and starts the engine at once. -/
def armedStarts (d : Direction) : Phases d where
  free _ h := h.Each fun pre e => e.Starts d → pre.JustArmed d
  checked _ h := (h.Each fun pre e => e.Starts d → pre.JustArmed d) ∧
    .acted (.status d) .notStarted ∈ h
  armed _ h := (h.Each fun pre e => e.Starts d → pre.JustArmed d) ∧ h.JustArmed d
  busy _ h := h.Each fun pre e => e.Starts d → pre.JustArmed d
  keeps_free := keeps_unless_started fun _ _ he hj => hj.concat_unstarted he
  keeps_checked := by
    refine keeps_unless_started ?_
    rintro h e he ⟨hj, hs⟩
    exact ⟨hj.concat_unstarted he, by simp [hs]⟩
  keeps_busy := (keeps_unless_started fun _ _ he hj => hj.concat_unstarted he).avoiding
  free_of_checked _ _ hc := hc.1
  busy_of_free _ _ hf := hf
  check _ _ _ hj := ⟨hj.concat_unstarted id, by simp⟩
  arm := by
    rintro l h ⟨hj, hs⟩
    exact ⟨hj.concat_unstarted id, h, [], rfl, by simp, hs⟩
  note := by
    rintro a x l h ha ⟨hj, hs⟩
    exact ⟨hj.concat_unstarted (not_starts_of_notes ha x), hs.note ha x⟩
  start := by
    rintro c x l h - ⟨hj, hs⟩
    exact Trace.each_concat.2 ⟨hj, fun _ => hs⟩
  stop ms _ _ hj :=
    disarmed_unless_started (fun _ _ he hj => hj.concat_unstarted he) ms (hj.concat_unstarted id)
  consume _ _ _ _ hj := hj.concat_unstarted id

theorem Trace.settled_nil : Trace.Settled d [] := Trace.followed_of_none (by simp)

/-- One more event starts nothing, and settles what is under way, if anything is. -/
theorem Trace.settled_concat (hn : ¬ e.Starts d) (hs : e.Settles d ∨ h.Settled d) :
    Trace.Settled d (h ++ [e]) := Trace.followed_concat hn hs

/-- Every start so far, and every use of the buffer, found the earlier transfers of its direction
over. -/
def Trace.Exclusive (d : Direction) (h : Trace) : Prop :=
  h.Each fun pre e => e.Starts d ∨ e.Touches d → pre.Settled d

theorem Trace.Exclusive.concat (hx : h.Exclusive d) (hn : ¬ e.Starts d ∧ ¬ e.Touches d) :
    Trace.Exclusive d (h ++ [e]) :=
  Trace.each_concat.2 ⟨hx, fun hs => (hs.elim hn.1 hn.2).elim⟩

/-- What happens while the engine is left to its work. -/
theorem keeps_exclusive : Keeps (·.Avoids d) (· ≠ d) fun _ h => h.Exclusive d := by
  refine (Keeps.of_trace (E := fun e => ¬ e.Starts d ∧ ¬ e.Touches d) ?_
    fun _ _ he hx => Trace.Exclusive.concat hx he).weaken ?_ fun _ _ => trivial
  · intro e he
    refine ⟨not_starts_of_passive he, ?_⟩
    cases e with
    | acted a x => exact he.elim
    | _ => exact id
  · rintro a ⟨hh, ht⟩ x
    exact ⟨not_starts_of_not_handles hh x, ht⟩

/-- The buffer may be used once all transfers are over. -/
theorem settled_unless_started (h : Trace) (e : Event) (he : ¬ e.Starts d)
    (hs : h.Exclusive d ∧ h.Settled d) :
    Trace.Exclusive d (h ++ [e]) ∧ Trace.Settled d (h ++ [e]) :=
  ⟨Trace.each_concat.2 ⟨hs.1, fun _ => hs.2⟩, Trace.settled_concat he (.inr hs.2)⟩

/-- A direction's transfers one after the other. -/
def exclusiveStarts (d : Direction) : Phases d where
  free _ h := h.Exclusive d ∧ h.Settled d
  checked _ h := h.Exclusive d ∧ h.Settled d
  armed _ h := h.Exclusive d ∧ h.Settled d
  busy _ h := h.Exclusive d
  keeps_free := keeps_unless_started settled_unless_started
  keeps_checked := keeps_unless_started settled_unless_started
  keeps_busy := keeps_exclusive
  free_of_checked _ _ hc := hc
  busy_of_free _ _ hf := hf.1
  check _ h _ hf := settled_unless_started h _ id hf
  arm _ h hf := settled_unless_started h _ id hf
  note _ x _ h ha hf := settled_unless_started h _ (not_starts_of_notes ha x) hf
  start := by
    rintro c x l h - ⟨hx, hs⟩
    exact Trace.each_concat.2 ⟨hx, fun _ => hs⟩
  stop ms _ _ hx :=
    disarmed_unless_started settled_unless_started ms
      ⟨hx.concat ⟨id, id⟩, Trace.settled_concat id (.inl rfl)⟩
  consume _ _ _ _ hx := ⟨hx.concat ⟨id, id⟩, Trace.settled_concat id (.inl rfl)⟩

/-- In a run of any operations on any hardware an engine starts only on a cell that its call found
unused and has just armed, and between two starts of a direction the first transfer is stopped or a
report consumed. Until then no call writes or reads the direction's buffer. -/
theorem transfers_exclusive (H : Hardware σ) (s : Session σ) (ops : List Operation)
    (d : Direction) :
    (∀ tr ∈ (s.run H ops).1.map Prod.snd,
      tr.Each fun pre e => e.Starts d → pre.JustArmed d) ∧
    Trace.Each (fun pre e => e.Starts d → pre.Settled d)
      ((s.run H ops).1.map Prod.snd).flatten ∧
    Trace.Each (fun pre e => e.Touches d → pre.Settled d)
      ((s.run H ops).1.map Prod.snd).flatten := by
  have busy : ∀ {Φ : ∀ d, Phases d} {c l h}, Phases.Resting Φ c l h → (Φ d).busy l h := by
    rintro Φ c l h ⟨ht, hr⟩
    cases d with
    | tx => exact (Φ .tx).busy_of_free l h ht
    | rx => exact hr.busy
  have exclusive : Trace.Exclusive d ((s.run H ops).1.map Prod.snd).flatten := by
    have start : Phases.Resting exclusiveStarts s.config s.world.link [] :=
      ⟨⟨Trace.each_nil, Trace.settled_nil⟩, .inl ⟨Trace.each_nil, Trace.settled_nil⟩⟩
    have kept := Phases.kept_resting exclusiveStarts fun _ _ _ hf => hf
    exact busy (kept.run H start ops)
  refine ⟨?_, fun pre e post he hs => exclusive pre e post he (.inl hs),
    fun pre e post he ht => exclusive pre e post he (.inr ht)⟩
  intro tr htr
  have start : ∀ c l, Phases.Resting armedStarts c l [] := by
    intro c l
    exact ⟨Trace.each_nil, .inl Trace.each_nil⟩
  have kept := Phases.kept_resting armedStarts fun _ _ _ hf => hf
  obtain ⟨c, l, hr⟩ := kept.each H start s ops tr htr
  exact busy hr

end Joybus.Transceiver
