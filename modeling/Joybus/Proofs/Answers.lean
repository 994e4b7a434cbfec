import Joybus.Proofs.Readiness

/-! What the hardware answers in a history: the words it takes and delivers, and the looks at it in
vain. -/
namespace Joybus.Transceiver

variable {α : Type} {d : Direction} {l : Link} {h ev : Trace} {ms : List Mark}

/-- A look at the hardware that may be in vain. -/
inductive Look where
  /-- At the flag of the bus turn. -/
  | turn
  /-- A word offered to a FIFO. -/
  | push (d : Direction)
  /-- A word asked for. -/
  | pull
deriving DecidableEq, Repr

namespace Event

/-- The words that the hardware of direction `d` takes. -/
def handed (d : Direction) : Event → List Word
  | .acted (.command (.startTx ws)) _ => if d = .tx then ws else []
  | .acted (.command (.push e w)) true => if e = d then [w] else []
  | _ => []

/-- The words that the receive hardware delivers, all at once or one by one. -/
def delivered : Event → List Word
  | .acted (.command (.startRx n)) ws => ws.take n
  | .acted (.command (.pull .rx)) (some w) => [w]
  | _ => []

/-- A look in vain. -/
def miss? : Event → Option Look
  | .acted (.command (.flag .tx _)) false => some .turn
  | .acted (.command (.push d _)) false => some (.push d)
  | .acted (.command (.pull .rx)) none => some .pull
  | _ => none

end Event

namespace Trace

def handed (d : Direction) (h : Trace) : List Word := h.flatMap (Event.handed d)

def delivered (h : Trace) : List Word := h.flatMap Event.delivered

/-- How often a look was in vain. -/
def misses (k : Look) (h : Trace) : Nat := h.countP fun e => e.miss? = some k

@[simp] theorem handed_nil : handed d [] = [] := rfl

@[simp] theorem delivered_nil : delivered [] = [] := rfl

@[simp] theorem misses_nil {k : Look} : misses k [] = 0 := rfl

@[simp] theorem handed_cons {e : Event} : handed d (e :: h) = e.handed d ++ h.handed d := rfl

@[simp] theorem delivered_cons {e : Event} : delivered (e :: h) = e.delivered ++ h.delivered := rfl

@[simp] theorem misses_cons {k : Look} {e : Event} :
    misses k (e :: h) = h.misses k + if e.miss? = some k then 1 else 0 := by
  simp [misses, List.countP_cons]

@[simp] theorem handed_append : handed d (h ++ ev) = h.handed d ++ ev.handed d := by
  simp [handed]

@[simp] theorem delivered_append : delivered (h ++ ev) = h.delivered ++ ev.delivered := by
  simp [delivered]

@[simp] theorem misses_append {k : Look} : misses k (h ++ ev) = h.misses k + ev.misses k := by
  simp [misses]

theorem flatMap_markTrace {β : Type} {f : Event → List β} (hf : ∀ m s, f (.marked m s) = []) :
    (l.markTrace ms).flatMap f = [] := by
  refine List.flatMap_eq_nil_iff.2 ?_
  intro e he
  obtain ⟨m, s, rfl⟩ := Link.mem_markTrace he
  exact hf m s

@[simp] theorem handed_markTrace : handed d (l.markTrace ms) = [] :=
  flatMap_markTrace fun _ _ => rfl

@[simp] theorem delivered_markTrace : delivered (l.markTrace ms) = [] :=
  flatMap_markTrace fun _ _ => rfl

@[simp] theorem misses_markTrace {k : Look} : misses k (l.markTrace ms) = 0 := by
  refine List.countP_eq_zero.2 ?_
  intro e he
  obtain ⟨m, s, rfl⟩ := Link.mem_markTrace he
  simp [Event.miss?]

end Trace

section Kept

theorem keeps_misses (k : Look) (n : Nat) :
    Keeps (fun a => ∀ x, (Event.acted a x).miss? ≠ some k) (fun _ => True)
      fun _ h => h.misses k = n := by
  refine .of_trace (E := fun e => e.miss? ≠ some k) (P := fun h => h.misses k = n) ?_ ?_
  · intro e he
    cases e with
    | acted a x => exact he.elim
    | marked m s => simp [Event.miss?]
    | consumed m => simp [Event.miss?]
    | delayed us => simp [Event.miss?]
  · intro h e he hh
    simp [hh, he]

theorem keeps_handed (d : Direction) (words : List Word) :
    Keeps (fun a => ∀ x, (Event.acted a x).handed d = []) (fun _ => True)
      fun _ h => h.handed d = words := by
  refine .of_trace (E := fun e => e.handed d = []) (P := fun h => h.handed d = words) ?_ ?_
  · intro e he
    cases e with
    | acted a x => exact he.elim
    | marked m s => rfl
    | consumed m => rfl
    | delayed us => rfl
  · intro h e he hh
    simp [hh, he]

theorem keeps_delivered (words : List Word) :
    Keeps (fun a => ∀ x, (Event.acted a x).delivered = []) (fun _ => True)
      fun _ h => h.delivered = words := by
  refine .of_trace (E := fun e => e.delivered = []) (P := fun h => h.delivered = words) ?_ ?_
  · intro e he
    cases e with
    | acted a x => exact he.elim
    | marked m s => rfl
    | consumed m => rfl
    | delayed us => rfl
  · intro h e he hh
    simp [hh, he]

end Kept

section Loops
variable (b : Budget)

/-- A bus turn that is not seen was looked for once more than there are sleeps. -/
theorem awaitBusTurn_misses :
    (awaitBusTurn b).Ensures
      (fun seen _ h' => seen = false → h'.misses .turn = h.misses .turn + b.naps + 1)
      (fun _ _ => True) l h := by
  induction b generalizing l h with
  | spent b spent =>
    rw [awaitBusTurn, if_pos spent, Call.ensures_bind, Call.ensures_readFlag]
    intro x ms
    cases x with
    | false => simp [Event.miss?, Budget.naps_spent spent]
    | true =>
      intro hf
      exact Bool.noConfusion hf
  | sleep b unspent ih =>
    rw [awaitBusTurn, if_neg unspent, Call.ensures_bind, Call.ensures_readFlag]
    intro x ms
    cases x with
    | false =>
      intro ms'
      refine ⟨ensuresAll_true, ih.imp ?_⟩
      intro seen l h' hs hn
      have hm := hs hn
      simp [Event.miss?, Wait.beginning] at hm
      rw [Budget.naps_unspent unspent]
      omega
    | true =>
      intro hf
      exact Bool.noConfusion hf

/-- A word that is taken uses up one sleep a refusal; one that is not was refused once more than
there are sleeps. -/
theorem pushWithin_misses (d : Direction) (word : Word) (undo : List Action) :
    (pushWithin d word undo b).Ensures
      (fun r _ h' => match r with
        | some left => h'.misses (.push d) + left.naps = h.misses (.push d) + b.naps ∧
            h'.handed d = h.handed d ++ [word]
        | none => h'.misses (.push d) = h.misses (.push d) + b.naps + 1)
      (fun _ _ => True) l h := by
  induction b generalizing l h with
  | spent b spent =>
    rw [pushWithin, if_pos spent, Call.ensures_bind, Call.ensures_push]
    intro x ms
    cases x with
    | false => simp [Event.miss?, Budget.naps_spent spent]
    | true => simp [Event.miss?, Event.handed]
  | sleep b unspent ih =>
    rw [pushWithin, if_neg unspent, Call.ensures_bind, Call.ensures_push]
    intro x ms
    cases x with
    | false =>
      have naps := Budget.naps_unspent unspent
      intro ms'
      refine ⟨ensuresAll_true, ih.imp ?_⟩
      intro r l h' hs
      cases r with
      | none =>
        simp [Event.miss?, Wait.beginning] at hs
        simp only
        omega
      | some left =>
        simp [Event.miss?, Event.handed, Wait.beginning] at hs
        exact ⟨by omega, hs.2⟩
    | true => simp [Event.miss?, Event.handed]

/-- What the FIFO takes at first, and what is left. -/
theorem fill_misses (words : List Word) :
    (fill words).Ensures
      (fun rest _ h' => h'.handed .tx ++ rest = h.handed .tx ++ words ∧
        h'.misses (.push .tx) = h.misses (.push .tx) + if rest = [] then 0 else 1)
      (fun _ _ => True) l h := by
  induction words generalizing l h with
  | nil => simp [fill]
  | cons word words ih =>
    rw [fill, Call.ensures_bind, Call.ensures_push]
    intro x ms
    cases x with
    | false => simp [Event.miss?, Event.handed]
    | true =>
      refine ih.imp ?_
      rintro rest l h' ⟨hw, hm⟩
      simp [Event.miss?, Event.handed] at hw hm
      exact ⟨hw, hm⟩

/-- Words that are not all taken were refused once more than there are sleeps for all of them. -/
theorem feed_misses (words : List Word) :
    (feed words b).Ensures
      (fun fed _ h' => if fed then h'.handed .tx = h.handed .tx ++ words
        else h'.misses (.push .tx) = h.misses (.push .tx) + b.naps + 1)
      (fun _ _ => True) l h := by
  induction words generalizing b l h with
  | nil => simp [feed]
  | cons word words ih =>
    rw [feed, Call.ensures_bind]
    refine (pushWithin_misses b .tx word _).imp ?_
    intro r l h1 hs
    cases r with
    | none => exact hs
    | some left =>
      refine (ih left).imp ?_
      intro fed l h2 hf
      cases fed with
      | false =>
        simp at hf ⊢
        omega
      | true =>
        simp at hf ⊢
        rw [hf, hs.2, List.append_assoc]
        rfl

theorem pullWithin_misses :
    (pullWithin b).Ensures
      (fun r _ h' => match r with
        | some (word, left) => h'.misses .pull + left.naps = h.misses .pull + b.naps ∧
            h'.delivered = h.delivered ++ [word]
        | none => h'.misses .pull = h.misses .pull + b.naps + 1)
      (fun _ _ => True) l h := by
  induction b generalizing l h with
  | spent b spent =>
    rw [pullWithin, if_pos spent, Call.ensures_bind, Call.ensures_pull]
    intro x ms
    cases x with
    | none => simp [Event.miss?, Budget.naps_spent spent]
    | some word => simp [Event.miss?, Event.delivered]
  | sleep b unspent ih =>
    rw [pullWithin, if_neg unspent, Call.ensures_bind, Call.ensures_pull]
    intro x ms
    cases x with
    | none =>
      have naps := Budget.naps_unspent unspent
      intro ms'
      refine ⟨ensuresAll_true, ih.imp ?_⟩
      intro r l h' hs
      cases r with
      | none =>
        simp [Event.miss?, Wait.beginning] at hs
        simp only
        omega
      | some r =>
        obtain ⟨word, left⟩ := r
        simp [Event.miss?, Event.delivered, Wait.beginning] at hs
        exact ⟨by omega, hs.2⟩
    | some word => simp [Event.miss?, Event.delivered]

end Loops

/-- The receive buffer is written by an engine, or word by word. -/
def Action.Writes : Action → Prop
  | .command (.startRx _) | .store _ _ => True
  | _ => False

theorem keeps_received (x : Buffer rxCapacity) :
    Keeps (¬ ·.Writes) (fun _ => True) fun l _ => l.received = x where
  act a ha x l _ hl := by
    cases a with
    | command c => cases c <;> first | exact (ha trivial).elim | exact hl
    | store i w => exact (ha trivial).elim
    | _ => exact hl
  mark _ _ _ hl := hl
  wake _ _ _ hl := hl
  delay _ _ _ hl := hl
  take _ _ _ _ _ _ hl := hl

theorem Buffer.take_setIfInBounds {n i : Nat} (b : Buffer n) (x : Word) (hi : i < n) :
    (b.setIfInBounds i x).toList.take (i + 1) = b.toList.take i ++ [x] := by
  have hl : i < b.toList.length := by simpa using hi
  have ht : (b.toList.take i).length = i := by simp [Nat.min_eq_left (Nat.le_of_lt hi)]
  rw [Vector.toList_setIfInBounds, List.set_eq_take_append_cons_drop, if_pos hl,
    List.take_append, List.take_of_length_le (by omega), ht]
  simp

/-- Words that do not all come were asked for in vain once more than there are sleeps for all of
them; else they stand in the buffer in the order they came. -/
theorem collect_misses (b : Budget) (missing index : Nat) (hc : index + missing ≤ rxCapacity)
    (hd : l.received.toList.take index = h.delivered) :
    (collect missing index b).Ensures
      (fun all l' h' => if all then l'.received.toList.take (index + missing) = h'.delivered
        else h'.misses .pull = h.misses .pull + b.naps + 1)
      (fun _ _ => True) l h := by
  induction missing generalizing index b l h with
  | zero => simpa [collect] using hd
  | succ missing ih =>
    have received : (pullWithin b).Ensures (fun _ l' _ => l'.received = l.received)
        (fun _ _ => True) l h :=
      (keeps_received l.received).naps (pullWithin_uses id fun _ => trivial) rfl
    rw [collect, Call.ensures_bind]
    refine ((pullWithin_misses b).and received).mono ?_ fun _ _ _ => trivial
    intro r l1 h1 hp
    obtain ⟨hs, hl⟩ := hp
    cases r with
    | none => exact hs
    | some r =>
      obtain ⟨word, left⟩ := r
      simp only [Call.ensures_bind, Call.ensures_store, Action.Ensures]
      refine (ih left (index + 1) (by omega) ?_).imp ?_
      · rw [Buffer.take_setIfInBounds _ _ (by omega), hl, hd]
        simp [hs.2, Event.delivered]
      · intro all l2 h2 hf
        cases all with
        | false =>
          simp [Event.miss?] at hf ⊢
          omega
        | true => simpa [Nat.add_assoc, Nat.add_comm 1] using hf

end Joybus.Transceiver
