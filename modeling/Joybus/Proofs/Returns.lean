import Joybus.Proofs.Routing

/-! A channel from its claim until it is given back: what of the claim is undone by that, whatever
the channel was used for in between. -/
namespace Joybus.Chip

variable {c c' c'' : Chip} {ch other : ChannelId} {d : Direction} {k : Channel} {e : Endpoint}

/-- What may happen to a chip while a channel is claimed. -/
inductive Occurrence where
  | start (t : Transfer)
  | abort
  /-- The hardware ends the channel's transfer, and its interrupt is served if it is seen. -/
  | complete (error : Bool)
  /-- The hardware ends the channel's transfer, and the service routine does not run yet. -/
  | finish (error : Bool)
  | service
  -- the accesses of `abort` one by one, so that anything may come between them
  | mute
  | cease (spurious : Bool)
  | clear
  | unmute
  /-- The hardware follows another script from here on. -/
  | rescript (script : Bench.Script)

def undergo (c : Chip) (k : Channel) : Occurrence → Chip
  | .start t => (c.start k t).2
  | .abort => c.abort k
  | .complete error => c.complete k.id error
  | .finish error => c.raise k.id error
  | .service => c.service
  | .mute => c.mute k.id
  | .cease spurious => c.cease k.id spurious
  | .clear => c.acknowledge (mask k.id)
  | .unmute => c.unmute k.id
  | .rescript script => { c with script }

/-- The chip after some occurrences, the first of them first. -/
def undergoAll (c : Chip) (k : Channel) (os : List Occurrence) : Chip :=
  os.foldl (fun c o => c.undergo k o) c

section Bits

/-- A bit that is set and then cleared is clear, and the others are as they were. -/
theorem or_mask_and_not_mask (w : Word) (ch : ChannelId) :
    (w ||| mask ch) &&& ~~~mask ch = w &&& ~~~mask ch := by
  apply BitVec.eq_of_getLsbD_eq
  intro i _
  simp only [getLsbD_or_mask, getLsbD_and_not_mask]
  by_cases hi : i = ch.val <;> simp [hi]

/-- Clearing a bit changes nothing if and only if it is clear. -/
theorem and_not_mask_eq_self_iff (w : Word) (ch : ChannelId) :
    w &&& ~~~mask ch = w ↔ w.getLsbD ch = false := by
  constructor
  · intro same
    rw [← same, getLsbD_and_not_mask]
    simp
  · intro clear
    apply BitVec.eq_of_getLsbD_eq
    intro i _
    rw [getLsbD_and_not_mask]
    by_cases hi : i = ch.val
    · rw [hi, clear, Bool.false_and]
    · simp [hi]

end Bits

section Spares

/-- The same wiring with a channel's interrupt kept off line 1. -/
def Wiring.mute (w : Wiring) (ch : ChannelId) : Wiring := { w with line1 := w.line1 &&& ~~~mask ch }

theorem Wiring.mute_mute (w : Wiring) (ch : ChannelId) : (w.mute ch).mute ch = w.mute ch := by
  simp only [mute, BitVec.and_assoc, BitVec.and_self]

/-- The registers of a channel are as they were, unless its interrupt was seen on the line and has
been served. -/
def Served (p q : Port) : Prop := q = p ∨ q = p.served

theorem Served.trans {p q r : Port} (hq : Served p q) (hr : Served q r) : Served p r := by
  obtain rfl | rfl := hq
  · exact hr
  · have again : p.served.served = p.served := by
      simp only [Port.served, Port.pending]
      cases p.raised <;> cases p.routed <;> rfl
    obtain rfl | rfl := hr
    · exact .inr rfl
    · exact .inr again

/-- Nothing has changed but what concerns one channel, and what the service routine does for the
others. -/
structure Spares (ch : ChannelId) (c c' : Chip) : Prop where
  wiring : c'.wiring.mute ch = c.wiring.mute ch
  others : ∀ {other}, other ≠ ch → Served (c.port other) (c'.port other)

theorem Spares.trans (h : Spares ch c c') (h' : Spares ch c' c'') : Spares ch c c'' where
  wiring := h'.wiring.trans h.wiring
  others ne := (h.others ne).trans (h'.others ne)

theorem spares_of_eq (wiring : c'.wiring = c.wiring)
    (others : ∀ {other}, other ≠ ch → c'.port other = c.port other) : Spares ch c c' where
  wiring := by rw [wiring]
  others ne := .inl (others ne)

theorem spares_mute (c : Chip) (ch : ChannelId) : Spares ch c (c.mute ch) where
  wiring := by rw [wiring_mute]; exact Wiring.mute_mute ..
  others ne := .inl (port_mute_of_ne ne)

theorem spares_unmute (c : Chip) (ch : ChannelId) : Spares ch c (c.unmute ch) where
  wiring := by simp only [wiring_unmute, Wiring.mute, or_mask_and_not_mask]
  others ne := .inl (port_unmute_of_ne ne)

theorem spares_clear (c : Chip) (ch : ChannelId) : Spares ch c (c.acknowledge (mask ch)) :=
  spares_of_eq (wiring_acknowledge _) port_acknowledge_of_ne

theorem spares_cease (c : Chip) (ch : ChannelId) (spurious : Bool) :
    Spares ch c (c.cease ch spurious) :=
  spares_of_eq (wiring_cease spurious) (port_cease_of_ne spurious)

theorem spares_raise (c : Chip) (ch : ChannelId) (error : Bool) : Spares ch c (c.raise ch error) :=
  spares_of_eq (wiring_raise error) (port_raise_of_ne error)

theorem spares_service (c : Chip) (ch : ChannelId) : Spares ch c c.service where
  wiring := by rw [wiring_service]
  others _ := .inr port_service

theorem spares_serveDue (c : Chip) (ch : ChannelId) : Spares ch c c.serveDue where
  wiring := by rw [wiring_serveDue]
  others _ := .inr port_serveDue

theorem spares_complete (c : Chip) (ch : ChannelId) (error : Bool) :
    Spares ch c (c.complete ch error) :=
  (spares_raise c ch error).trans (spares_serveDue _ ch)

theorem spares_halt (c : Chip) (ch : ChannelId) : Spares ch c (c.halt ch) := by
  rw [halt_eq]
  split
  · exact (spares_cease c ch true).trans (spares_serveDue _ ch)
  · exact spares_cease c ch false

theorem spares_abort (c : Chip) (k : Channel) : Spares k.id c (c.abort k) := by
  rw [abort_eq]
  exact (((spares_mute c k.id).trans (spares_halt _ k.id)).trans (spares_clear _ k.id)).trans
    (spares_unmute _ k.id)

theorem spares_start (c : Chip) (k : Channel) (t : Transfer) :
    Spares k.id c (c.start k t).2 := by
  have whole : (c.start k t).2 = ((c.arm k t).move k t).2.meetFate k := rfl
  have armed : Spares k.id c (c.arm k t) := spares_of_eq (wiring_arm k t) (port_arm_of_ne k t)
  have moved : Spares k.id (c.arm k t) ((c.arm k t).move k t).2 :=
    spares_of_eq (wiring_move k t) fun _ => port_move k t
  have asked : ∀ c : Chip, Spares k.id c (c.asked k.endpoint.dir) :=
    fun c => spares_of_eq (wiring_asked _) fun _ => rfl
  have begun := (armed.trans moved).trans (asked _)
  rw [whole, meetFate_eq]
  cases (((c.arm k t).move k t).2.script.start k.endpoint.dir).1 with
  | done => exact begun.trans (spares_complete _ k.id false)
  | error => exact begun.trans (spares_complete _ k.id true)
  | never => exact begun

/-- Whatever happens to a claimed channel spares the others. -/
theorem spares_undergo (c : Chip) (k : Channel) (o : Occurrence) :
    Spares k.id c (c.undergo k o) := by
  cases o with
  | start t => exact spares_start c k t
  | abort => exact spares_abort c k
  | complete error => exact spares_complete c k.id error
  | finish error => exact spares_raise c k.id error
  | service => exact spares_service c k.id
  | mute => exact spares_mute c k.id
  | cease spurious => exact spares_cease c k.id spurious
  | clear => exact spares_clear c k.id
  | unmute => exact spares_unmute c k.id
  | rescript script => exact spares_of_eq rfl fun _ => rfl

theorem spares_undergoAll (c : Chip) (k : Channel) (os : List Occurrence) :
    Spares k.id c (c.undergoAll k os) := by
  induction os generalizing c with
  | nil => exact spares_of_eq rfl fun _ => rfl
  | cons o os ih => exact (spares_undergo c k o).trans (ih _)

end Spares

section Returns

/-- What has become of a chip when a channel that was claimed on it is given back. -/
structure Returned (ch : ChannelId) (before after : Chip) : Prop where
  /-- The claim table is as it was. -/
  claimed : ∀ d, after.claimed d = before.claimed d
  /-- The channel's interrupt goes to neither line, and all others go where they went. -/
  line0 : after.enable0 = before.enable0 &&& ~~~mask ch
  line1 : after.enable1 = before.enable1 &&& ~~~mask ch
  idle : (after.port ch).busy = false
  quiet : (after.port ch).raised = false
  /-- The other channels are as they were, but for interrupts that were seen on the line and have
  been served. -/
  others : ∀ {other}, other ≠ ch → after.port other = before.port other ∨
    (before.port other).pending = true ∧ after.port other = (before.port other).served

theorem port_release_self (k : Channel) :
    (c.release k).port k.id =
      ⟨false, !c.script.spurious && (c.port k.id).error, false, false⟩ := by
  rw [release_eq, port_setClaim, port_mute_self, port_abort_self]

theorem port_release_of_ne (k : Channel) (h : other ≠ k.id) :
    (c.release k).port other = (c.abort k).port other := by
  rw [release_eq, port_setClaim, port_mute_of_ne h]

theorem claim_eq_some (h : c.claim ch e = some (k, c')) :
    k = ⟨ch, e⟩ ∧ c' = c.route ch e.dir ∧ c.claimed e.dir = none := by
  unfold claim at h
  split at h
  · exact absurd h (by simp)
  · next free =>
    obtain ⟨rfl, rfl⟩ := Prod.mk.inj (Option.some.inj h)
    exact ⟨rfl, rfl, free⟩

/-- As long as a claimed channel's use spares the others, giving it back takes it out of the claim
table and off both lines, and leaves the rest as it was before the claim. -/
theorem wiring_returned (free : c.claimed d = none) (spared : Spares ch (c.route ch d) c') :
    c'.wiring.release ch d = ⟨c.enable0 &&& ~~~mask ch, c.enable1 &&& ~~~mask ch, c.claimed⟩ := by
  have used := spared.wiring
  rw [wiring_route] at used
  have line0 : c'.wiring.line0 = c.enable0 &&& ~~~mask ch := congrArg Wiring.line0 used
  have line1 : c'.wiring.line1 &&& ~~~mask ch = (c.enable1 ||| mask ch) &&& ~~~mask ch :=
    congrArg Wiring.line1 used
  have claims : c'.wiring.claimed = Function.update c.claimed d (some ch) :=
    congrArg Wiring.claimed used
  have table : Function.update c.claimed d none = c.claimed := by
    rw [← free, Function.update_eq_self]
  rw [Wiring.release, line0, line1, claims, or_mask_and_not_mask, Function.update_idem, table]

theorem returned_of_claim (h : c.claim ch e = some (k, c')) (os : List Occurrence) :
    Returned ch c ((c'.undergoAll k os).release k) := by
  obtain ⟨rfl, rfl, free⟩ := claim_eq_some h
  have spared := spares_undergoAll (c.route ch e.dir) ⟨ch, e⟩ os
  generalize (c.route ch e.dir).undergoAll ⟨ch, e⟩ os = used at spared
  have wiring := wiring_returned free spared
  rw [← wiring_release ⟨ch, e⟩] at wiring
  have own := port_release_self (c := used) ⟨ch, e⟩
  refine ⟨?_, ?_, ?_, ?_, ?_, ?_⟩
  · exact congrFun (congrArg Wiring.claimed wiring)
  · exact congrArg Wiring.line0 wiring
  · exact congrArg Wiring.line1 wiring
  · exact congrArg Port.busy own
  · exact congrArg Port.raised own
  · intro other ne
    have served := (spared.others ne).trans ((spares_abort used ⟨ch, e⟩).others ne)
    rw [port_route_of_ne ne, ← port_release_of_ne ⟨ch, e⟩ ne] at served
    obtain same | acknowledged := served
    · exact .inl same
    · by_cases seen : (c.port other).pending = true
      · exact .inr ⟨seen, acknowledged⟩
      · refine .inl (acknowledged.trans ?_)
        simp [Port.served, seen]

/-- Giving a channel back undoes its claim, whatever happened in between, but for the enables: each
line is as it was if and only if it did not have the channel's interrupt before the claim. -/
theorem returned_but_for_lines (h : c.claim ch e = some (k, c')) (os : List Occurrence) :
    let after := (c'.undergoAll k os).release k
    Returned ch c after ∧
      (after.enable0 = c.enable0 ↔ c.enable0.getLsbD ch = false) ∧
      (after.enable1 = c.enable1 ↔ c.enable1.getLsbD ch = false) := by
  intro after
  have returned := returned_of_claim h os
  refine ⟨returned, ?_, ?_⟩
  · rw [returned.line0]
    exact and_not_mask_eq_self_iff ..
  · rw [returned.line1]
    exact and_not_mask_eq_self_iff ..

/-- A receive fails while its interrupt is kept off the line, and is given up with a stop that
raises another. Channel 5 of someone else keeps its fault and its interrupt. -/
theorem returned_but_for_lines_faulted :
    let c : Chip := Chip.raise { script := {} } 5 true
    let k : Channel := ⟨3, ⟨0x50300020, 12, .rx⟩⟩
    let os : List Occurrence :=
      [.start (.toMemory 2), .mute, .finish true, .service, .unmute,
        .rescript { spurious := true }, .abort, .start (.toMemory 1)]
    let after := ((c.route 3 .rx).undergoAll k os).release k
    c.claim 3 k.endpoint = some (k, c.route 3 .rx) ∧ Returned 3 c after ∧
      after.port 5 = ⟨false, true, true, false⟩ ∧ after.enable0 ≠ c.enable0 ∧
      after.enable1 = c.enable1 := by
  intro c k os after
  have claimed : c.claim 3 k.endpoint = some (k, c.route 3 .rx) := rfl
  obtain ⟨returned, line0, line1⟩ := returned_but_for_lines claimed os
  refine ⟨claimed, returned, ?_, ?_, ?_⟩
  · obtain same | ⟨seen, -⟩ := returned.others (show (5 : ChannelId) ≠ 3 by decide)
    · exact same.trans (by decide)
    · exact absurd seen (by decide)
  · exact mt line0.1 (by decide)
  · exact line1.2 (by decide)

/-- A channel that has just been claimed and is given back stays off line 0, to which its interrupt
went before. -/
theorem released_stays_off_line0 :
    let c : Chip := { script := {} }
    let e : Endpoint := ⟨0x50200010, 0, .tx⟩
    c.enable0.getLsbD 0 = true ∧
      ∃ k c', c.claim 0 e = some (k, c') ∧ (c'.release k).enable0 ≠ c.enable0 := by
  intro c e
  exact ⟨by decide, ⟨0, e⟩, c.route 0 .tx, rfl, by decide⟩

end Returns

end Joybus.Chip
