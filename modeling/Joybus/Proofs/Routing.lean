import Joybus.Chip.Channels
import Joybus.Proofs.Registers
import Mathlib.Logic.Function.Basic

/-! Which channels are claimed and where their interrupts go, over any uses of a rack. -/
namespace Joybus.Chip

variable {c : Chip} {ch other : ChannelId} {d : Direction}

/-- Which channels are claimed, and where interrupts go. -/
@[ext] structure Wiring where
  line0 : Word
  line1 : Word
  claimed : Direction → Option ChannelId

def wiring (c : Chip) : Wiring := ⟨c.enable0, c.enable1, c.claimed⟩

namespace Wiring

def claim (w : Wiring) (ch : ChannelId) (d : Direction) : Wiring where
  line0 := w.line0 &&& ~~~mask ch
  line1 := w.line1 ||| mask ch
  claimed := Function.update w.claimed d (some ch)

def release (w : Wiring) (ch : ChannelId) (d : Direction) : Wiring where
  line0 := w.line0
  line1 := w.line1 &&& ~~~mask ch
  claimed := Function.update w.claimed d none

/-- The interrupts of the claimed channels go to line 1, and no others; line 0 has none of them. No
channel serves both directions. -/
structure Sound (w : Wiring) : Prop where
  apart : ∀ {d e ch}, w.claimed d = some ch → w.claimed e = some ch → d = e
  line0 : ∀ {d ch}, w.claimed d = some ch → w.line0.getLsbD ch = false
  line1 : ∀ i, w.line1.getLsbD i = true ↔ ∃ d ch, w.claimed d = some ch ∧ ch.val = i

variable {w : Wiring}

theorem Sound.claim (hw : w.Sound) (free : ∀ e, w.claimed e ≠ some ch)
    (unclaimed : w.claimed d = none) : (w.claim ch d).Sound := by
  have at_self : (w.claim ch d).claimed d = some ch := Function.update_self ..
  have at_other : ∀ {e}, e ≠ d → (w.claim ch d).claimed e = w.claimed e :=
    fun he => Function.update_of_ne he ..
  refine ⟨?_, ?_, ?_⟩
  · intro e f other he hf
    by_cases hed : e = d <;> by_cases hfd : f = d
    · rw [hed, hfd]
    · rw [hed, at_self] at he
      rw [at_other hfd, ← he] at hf
      exact absurd hf (free f)
    · rw [hfd, at_self] at hf
      rw [at_other hed, ← hf] at he
      exact absurd he (free e)
    · rw [at_other hed] at he
      rw [at_other hfd] at hf
      exact hw.apart he hf
  · intro e other he
    have bit : (w.claim ch d).line0.getLsbD other =
        (w.line0.getLsbD other && decide (other.val ≠ ch.val)) :=
      getLsbD_and_not_mask w.line0 other
    rw [bit]
    by_cases hed : e = d
    · rw [hed, at_self, Option.some_inj] at he
      simp [he]
    · rw [at_other hed] at he
      simp [hw.line0 he]
  · intro i
    have bit : (w.claim ch d).line1.getLsbD i = true ↔ w.line1.getLsbD i = true ∨ i = ch.val := by
      simp only [Wiring.claim, getLsbD_or_mask, Bool.or_eq_true, decide_eq_true_eq]
    rw [bit, hw.line1]
    constructor
    · rintro (⟨e, other, he, rfl⟩ | rfl)
      · have hed : e ≠ d := by
          rintro rfl
          simp [unclaimed] at he
        exact ⟨e, other, by rw [at_other hed, he], rfl⟩
      · exact ⟨d, ch, at_self, rfl⟩
    · rintro ⟨e, other, he, rfl⟩
      by_cases hed : e = d
      · rw [hed, at_self, Option.some_inj] at he
        exact .inr (by rw [he])
      · rw [at_other hed] at he
        exact .inl ⟨e, other, he, rfl⟩

theorem Sound.release (hw : w.Sound) (held : w.claimed d = some ch) : (w.release ch d).Sound := by
  have at_self : (w.release ch d).claimed d = none := Function.update_self ..
  have at_other : ∀ {e}, e ≠ d → (w.release ch d).claimed e = w.claimed e :=
    fun he => Function.update_of_ne he ..
  have still : ∀ {e other}, (w.release ch d).claimed e = some other →
      w.claimed e = some other ∧ other ≠ ch := by
    intro e other he
    have hed : e ≠ d := by
      rintro rfl
      simp [at_self] at he
    rw [at_other hed] at he
    refine ⟨he, ?_⟩
    rintro rfl
    exact hed (hw.apart he held)
  refine ⟨?_, ?_, ?_⟩
  · intro e f other he hf
    exact hw.apart (still he).1 (still hf).1
  · intro e other he
    exact hw.line0 (still he).1
  · intro i
    have bit : (w.release ch d).line1.getLsbD i = true ↔
        w.line1.getLsbD i = true ∧ i ≠ ch.val := by
      simp only [Wiring.release, getLsbD_and_not_mask, Bool.and_eq_true, decide_eq_true_eq]
    rw [bit, hw.line1]
    constructor
    · rintro ⟨⟨e, other, he, rfl⟩, hne⟩
      have hed : e ≠ d := by
        rintro rfl
        rw [held, Option.some_inj] at he
        exact hne (by rw [he])
      exact ⟨e, other, by rw [at_other hed, he], rfl⟩
    · rintro ⟨e, other, he, rfl⟩
      obtain ⟨before, hne⟩ := still he
      exact ⟨⟨e, other, before, rfl⟩, Fin.val_ne_of_ne hne⟩

/-- A channel that is let through already stays so when it is let through again. -/
theorem Sound.line1_or_mask (hw : w.Sound) (held : w.claimed d = some ch) :
    w.line1 ||| mask ch = w.line1 := by
  apply BitVec.eq_of_getLsbD_eq
  intro i _
  rw [getLsbD_or_mask]
  by_cases hi : i = ch.val
  · simp [(hw.line1 i).2 ⟨d, ch, held, hi.symm⟩]
  · simp [hi]

end Wiring

section Wirings

@[simp] theorem wiring_log (a : Access) : (c.log a).wiring = c.wiring := rfl

@[simp] theorem wiring_acknowledge (m : Word) : (c.acknowledge m).wiring = c.wiring := rfl

@[simp] theorem wiring_setChannel (s : ChannelState) : (c.setChannel ch s).wiring = c.wiring := rfl

@[simp] theorem wiring_raise (error : Bool) : (c.raise ch error).wiring = c.wiring := rfl

@[simp] theorem wiring_asked (d : Direction) : (c.asked d).wiring = c.wiring := rfl

@[simp] theorem wiring_arm (k : Channel) (t : Transfer) : (c.arm k t).wiring = c.wiring := by
  simp only [arm, wiring_setChannel, wiring_log]

@[simp] theorem wiring_move (k : Channel) (t : Transfer) : (c.move k t).2.wiring = c.wiring := by
  unfold move
  split <;> rfl

@[simp] theorem wiring_mute :
    (c.mute ch).wiring = { c.wiring with line1 := c.wiring.line1 &&& ~~~mask ch } := rfl

@[simp] theorem wiring_unmute :
    (c.unmute ch).wiring = { c.wiring with line1 := c.wiring.line1 ||| mask ch } := rfl

@[simp] theorem wiring_writeEnable0 (value : Word) :
    (c.writeEnable0 value).wiring = { c.wiring with line0 := value } := rfl

@[simp] theorem wiring_setClaim (claim : Option ChannelId) :
    (c.setClaim d claim).wiring =
      { c.wiring with claimed := Function.update c.wiring.claimed d claim } := by
  have claims : (c.setClaim d claim).claimed = Function.update c.claimed d claim := by
    funext e
    by_cases he : e = d
    · rw [he, claimed_setClaim_self, Function.update_self]
    · rw [claimed_setClaim_of_ne claim he, Function.update_of_ne he]
  cases d <;> exact Wiring.ext rfl rfl claims

@[simp] theorem wiring_service : c.service.wiring = c.wiring := by
  rw [service_eq]
  rfl

@[simp] theorem wiring_serveDue : c.serveDue.wiring = c.wiring := by
  unfold serveDue
  split <;> simp

@[simp] theorem wiring_complete (error : Bool) : (c.complete ch error).wiring = c.wiring := by
  simp [complete_eq]

@[simp] theorem wiring_cease (spurious : Bool) : (c.cease ch spurious).wiring = c.wiring := by
  cases spurious <;> rfl

@[simp] theorem wiring_halt : (c.halt ch).wiring = c.wiring := by
  rw [halt_eq]
  split <;> simp

/-- A start changes nothing about where interrupts go. -/
@[simp] theorem wiring_start (k : Channel) (t : Transfer) : (c.start k t).2.wiring = c.wiring := by
  have whole : (c.start k t).2 = ((c.arm k t).move k t).2.meetFate k := rfl
  rw [whole, meetFate_eq]
  cases (((c.arm k t).move k t).2.script.start k.endpoint.dir).1 <;> simp

theorem wiring_route : (c.route ch d).wiring = c.wiring.claim ch d := by
  simp only [route_eq, wiring_unmute, wiring_acknowledge, wiring_writeEnable0, wiring_setClaim,
    Wiring.claim]
  cases d <;> rfl

/-- A transfer that is given up leaves its channel let through. -/
theorem wiring_abort (k : Channel) :
    (c.abort k).wiring = { c.wiring with line1 := c.wiring.line1 ||| mask k.id } := by
  have through : (c.wiring.line1 &&& ~~~mask k.id) ||| mask k.id = c.wiring.line1 ||| mask k.id := by
    apply BitVec.eq_of_getLsbD_eq
    intro i _
    simp only [getLsbD_or_mask, getLsbD_and_not_mask]
    by_cases hi : i = k.id.val <;> simp [hi]
  simp only [abort_eq, wiring_unmute, wiring_acknowledge, wiring_halt, wiring_mute, through]

theorem release_eq (c : Chip) (k : Channel) :
    c.release k = ((c.abort k).mute k.id).setClaim k.endpoint.dir none := rfl

theorem wiring_release (k : Channel) :
    (c.release k).wiring = c.wiring.release k.id k.endpoint.dir := by
  have shut : (c.wiring.line1 ||| mask k.id) &&& ~~~mask k.id = c.wiring.line1 &&& ~~~mask k.id := by
    apply BitVec.eq_of_getLsbD_eq
    intro i _
    simp only [getLsbD_or_mask, getLsbD_and_not_mask]
    by_cases hi : i = k.id.val <;> simp [hi]
  simp only [release_eq, wiring_setClaim, wiring_mute, wiring_abort, shut, Wiring.release]

end Wirings

section Spared

/-- A channel that is not let through is not served. -/
theorem Port.served_of_unrouted {p : Port} (h : p.routed = false) : p.served = p := by
  cases p
  simp_all [Port.served, Port.pending]

theorem port_complete_of_unrouted (error : Bool) (h : other ≠ ch)
    (hr : (c.port other).routed = false) : (c.complete ch error).port other = c.port other := by
  rw [complete_eq, port_serveDue, port_raise_of_ne error h, Port.served_of_unrouted hr]

theorem port_abort_of_unrouted (k : Channel) (h : other ≠ k.id)
    (hr : (c.port other).routed = false) : (c.abort k).port other = c.port other := by
  rw [port_abort_of_ne k h, Port.served_of_unrouted hr, ite_self]

theorem port_release_of_unrouted (k : Channel) (h : other ≠ k.id)
    (hr : (c.port other).routed = false) : (c.release k).port other = c.port other := by
  rw [release_eq, port_setClaim, port_mute_of_ne h, port_abort_of_unrouted k h hr]

theorem port_start_of_unrouted (k : Channel) (t : Transfer) (h : other ≠ k.id)
    (hr : (c.port other).routed = false) : (c.start k t).2.port other = c.port other := by
  have whole : (c.start k t).2 = ((c.arm k t).move k t).2.meetFate k := rfl
  have moved : ((c.arm k t).move k t).2.port other = c.port other := by
    rw [port_move, port_arm_of_ne k t h]
  rw [whole, meetFate_eq, ← moved]
  rw [← moved] at hr
  cases (((c.arm k t).move k t).2.script.start k.endpoint.dir).1 with
  | done => exact port_complete_of_unrouted (c := Chip.asked _ _) false h hr
  | error => exact port_complete_of_unrouted (c := Chip.asked _ _) true h hr
  | never => rfl

end Spared

/-- Only a channel that no slot holds is claimed, and nobody else sets enables. -/
def Use.Permitted (r : Rack) : Use → Prop
  | .claim _ ch _ => ∀ p ∈ r.slots, p.2.id ≠ ch
  | .enableQuietly _ => False
  | _ => True

instance Use.decidablePermitted (r : Rack) : (u : Use) → Decidable (u.Permitted r)
  | .claim _ ch _ => inferInstanceAs (Decidable (∀ p ∈ r.slots, p.2.id ≠ ch))
  | .enableQuietly _ => .isFalse id
  | .start .. | .abort _ | .release _ | .complete .. | .service | .take _ => .isTrue trivial

namespace Rack
variable {r : Rack} {slots : List (Nat × Channel)} {claimed : Direction → Option ChannelId}
  {u : Use} {us : List Use} {n : Nat} {k : Channel}

/-- Each claimed direction has one slot, which holds its channel. -/
structure Backed (slots : List (Nat × Channel)) (claimed : Direction → Option ChannelId) :
    Prop where
  numbered : ∀ {n j k}, (n, j) ∈ slots → (n, k) ∈ slots → j = k
  held : ∀ {n k}, (n, k) ∈ slots → claimed k.endpoint.dir = some k.id
  single : ∀ {m n j k}, (m, j) ∈ slots → (n, k) ∈ slots → j.endpoint.dir = k.endpoint.dir → m = n
  filled : ∀ {d ch}, claimed d = some ch → ∃ n k, (n, k) ∈ slots ∧ k.endpoint.dir = d

theorem Backed.clear (hb : Backed slots claimed) (mem : (n, k) ∈ slots) :
    Backed (slots.filter (·.1 != n)) (Function.update claimed k.endpoint.dir none) := by
  have kept : ∀ {m j}, (m, j) ∈ slots.filter (·.1 != n) ↔ (m, j) ∈ slots ∧ m ≠ n := by
    simp
  have apart : ∀ {m j}, (m, j) ∈ slots → m ≠ n → j.endpoint.dir ≠ k.endpoint.dir := by
    intro m j hj hm hd
    exact hm (hb.single hj mem hd)
  refine ⟨?_, ?_, ?_, ?_⟩
  · intro m i j hi hj
    exact hb.numbered (kept.1 hi).1 (kept.1 hj).1
  · intro m j hj
    obtain ⟨hj, hm⟩ := kept.1 hj
    rw [Function.update_of_ne (apart hj hm), hb.held hj]
  · intro m m' i j hi hj
    exact hb.single (kept.1 hi).1 (kept.1 hj).1
  · intro d ch hd
    by_cases hk : d = k.endpoint.dir
    · rw [hk, Function.update_self] at hd
      exact absurd hd (by simp)
    · rw [Function.update_of_ne hk] at hd
      obtain ⟨m, j, hj, hjd⟩ := hb.filled hd
      have hm : m ≠ n := by
        rintro rfl
        rw [hb.numbered hj mem] at hjd
        exact hk hjd.symm
      exact ⟨m, j, kept.2 ⟨hj, hm⟩, hjd⟩

theorem mem_fill {p : Nat × Channel} :
    p ∈ (r.fill n k).slots ↔ p = (n, k) ∨ p ∈ r.slots ∧ p.1 ≠ n := by
  simp only [fill, List.mem_append, List.mem_cons, List.mem_filter, bne_iff_ne, ne_eq,
    decide_eq_true_eq]
  constructor
  · rintro (⟨⟨mem, hn⟩, -⟩ | rfl | ⟨⟨mem, hn⟩, -⟩)
    · exact .inr ⟨mem, hn⟩
    · exact .inl rfl
    · exact .inr ⟨mem, hn⟩
  · rintro (rfl | ⟨mem, hn⟩)
    · exact .inr (.inl rfl)
    · rcases Nat.lt_or_gt_of_ne hn with lt | gt
      · exact .inl ⟨⟨mem, hn⟩, lt⟩
      · exact .inr (.inr ⟨⟨mem, hn⟩, gt⟩)

theorem Backed.fill (hb : Backed r.slots claimed) (empty : ∀ j, (n, j) ∉ r.slots)
    (free : claimed k.endpoint.dir = none) :
    Backed (r.fill n k).slots (Function.update claimed k.endpoint.dir (some k.id)) := by
  have cases : ∀ {m j}, (m, j) ∈ (r.fill n k).slots →
      (m = n ∧ j = k) ∨ (m, j) ∈ r.slots ∧ j.endpoint.dir ≠ k.endpoint.dir := by
    intro m j hj
    rcases mem_fill.1 hj with same | ⟨old, -⟩
    · exact .inl (by simpa using same)
    · refine .inr ⟨old, ?_⟩
      intro hd
      have held := hb.held old
      rw [hd, free] at held
      exact absurd held (by simp)
  refine ⟨?_, ?_, ?_, ?_⟩
  · intro m i j hi hj
    rcases cases hi with ⟨rfl, rfl⟩ | ⟨oldi, -⟩ <;> rcases cases hj with ⟨hm, rfl⟩ | ⟨oldj, -⟩
    · rfl
    · exact absurd oldj (empty j)
    · exact absurd (hm ▸ oldi) (empty i)
    · exact hb.numbered oldi oldj
  · intro m j hj
    rcases cases hj with ⟨rfl, rfl⟩ | ⟨old, hd⟩
    · exact Function.update_self ..
    · rw [Function.update_of_ne hd, hb.held old]
  · intro m m' i j hi hj hd
    rcases cases hi with ⟨rfl, rfl⟩ | ⟨oldi, hid⟩ <;>
      rcases cases hj with ⟨rfl, rfl⟩ | ⟨oldj, hjd⟩
    · rfl
    · exact absurd hd.symm hjd
    · exact absurd hd hid
    · exact hb.single oldi oldj hd
  · intro d ch hd
    by_cases hk : d = k.endpoint.dir
    · exact ⟨n, k, mem_fill.2 (.inl rfl), hk.symm⟩
    · rw [Function.update_of_ne hk] at hd
      obtain ⟨m, j, old, hjd⟩ := hb.filled hd
      have hm : m ≠ n := by
        rintro rfl
        exact empty j old
      exact ⟨m, j, mem_fill.2 (.inr ⟨old, hm⟩), hjd⟩

/-- The slots hold the claimed channels, and their interrupts go to line 1. -/
structure Consistent (r : Rack) : Prop where
  wired : r.chip.wiring.Sound
  backed : Backed r.slots r.chip.claimed

theorem slot?_eq_some (h : r.slot? n = some k) : (n, k) ∈ r.slots := by
  obtain ⟨p, hp, rfl⟩ := Option.map_eq_some_iff.1 h
  have number : p.1 = n := by simpa using List.find?_some hp
  rw [← number]
  exact List.mem_of_find?_eq_some hp

theorem slot?_eq_none (h : r.slot? n = none) (j : Channel) : (n, j) ∉ r.slots := by
  intro mem
  have missing := List.find?_eq_none.1 (Option.map_eq_none_iff.1 h) _ mem
  simp at missing

theorem claimed_wiring (c : Chip) : c.wiring.claimed = c.claimed := rfl

section Consistency

/-- A rack stays consistent as long as its slots and its chip's wiring stay. -/
theorem Consistent.congr {s : Rack} (hr : r.Consistent) (hc : s.chip.wiring = r.chip.wiring)
    (hs : s.slots = r.slots) : s.Consistent := by
  refine ⟨hc ▸ hr.wired, ?_⟩
  rw [hs, ← claimed_wiring, hc]
  exact hr.backed

theorem Consistent.release (hr : r.Consistent) (n : Nat) : (r.release n).Consistent := by
  unfold Rack.release
  cases hs : r.slot? n with
  | none => exact hr
  | some k =>
    have mem := slot?_eq_some hs
    have wiring : ((r.clear n).settle (r.chip.release k)).chip.wiring =
        r.chip.wiring.release k.id k.endpoint.dir := wiring_release k
    refine ⟨?_, ?_⟩
    · rw [wiring]
      exact hr.wired.release (hr.backed.held mem)
    · rw [← claimed_wiring, wiring]
      exact hr.backed.clear mem

/-- A channel claimed for a slot takes the place of the one there. -/
theorem Consistent.claim {ch : ChannelId} {e : Endpoint} {s : Rack} (hr : r.Consistent)
    (free : ∀ p ∈ r.slots, p.2.id ≠ ch) (unclaimed : r.chip.claimed e.dir = none)
    (wiring : s.chip.wiring = r.chip.wiring.claim ch e.dir) (hs : s.slots = r.slots) :
    ((s.release n).fill n ⟨ch, e⟩).Consistent := by
  have fresh : ∀ d, r.chip.wiring.claimed d ≠ some ch := by
    intro d hd
    obtain ⟨m, k, mem, rfl⟩ := hr.backed.filled hd
    have held := hr.backed.held mem
    rw [← claimed_wiring, hd, Option.some_inj] at held
    exact free _ mem held.symm
  have wired := hr.wired.claim fresh unclaimed
  have slot : s.slot? n = r.slot? n := by rw [slot?, hs, ← slot?]
  unfold Rack.release
  rw [slot]
  cases hk : r.slot? n with
  | none =>
    have backed : Backed s.slots r.chip.claimed := hs ▸ hr.backed
    have empty := slot?_eq_none hk
    rw [← hs] at empty
    refine ⟨?_, ?_⟩
    · exact wiring ▸ wired
    · have filled := backed.fill (k := ⟨ch, e⟩) empty unclaimed
      have claims : s.chip.claimed = Function.update r.chip.claimed e.dir (some ch) := by
        rw [← claimed_wiring, wiring]
        rfl
      exact claims ▸ filled
  | some k =>
    have mem := slot?_eq_some hk
    have held := hr.backed.held mem
    have apart : k.endpoint.dir ≠ e.dir := by
      intro hd
      rw [hd, unclaimed] at held
      exact absurd held (by simp)
    have released : ((s.clear n).settle (s.chip.release k)).chip.wiring =
        (r.chip.wiring.claim ch e.dir).release k.id k.endpoint.dir := by
      rw [← wiring]
      exact wiring_release k
    refine ⟨?_, ?_⟩
    · have same := Function.update_of_ne apart (some ch) r.chip.claimed
      have still : (r.chip.wiring.claim ch e.dir).claimed k.endpoint.dir = some k.id :=
        same.trans held
      exact released ▸ wired.release still
    · have claims : ((s.clear n).settle (s.chip.release k)).chip.claimed =
          Function.update (Function.update r.chip.claimed k.endpoint.dir none) e.dir (some ch) := by
        rw [← claimed_wiring, released]
        exact (Function.update_comm apart ..).symm
      have cleared : Backed ((s.clear n).settle (s.chip.release k)).slots
          (Function.update r.chip.claimed k.endpoint.dir none) := by
        have slots : ((s.clear n).settle (s.chip.release k)).slots =
            r.slots.filter (·.1 != n) := by
          rw [← hs]
          rfl
        exact slots ▸ hr.backed.clear mem
      have filled := cleared.fill (n := n) (k := ⟨ch, e⟩) (by simp [settle, clear]) (by
        rw [Function.update_of_ne (Ne.symm apart), unclaimed])
      exact claims ▸ filled

/-- What a use preserves. -/
theorem consistent_use (hr : r.Consistent) (hu : u.Permitted r) : (r.use u).2.Consistent := by
  cases u with
  | claim n ch e =>
    simp only [Rack.use, Chip.claim]
    cases hc : r.chip.claimed e.dir with
    | some => exact hr
    | none => exact hr.claim hu hc wiring_route rfl
  | start n t =>
    simp only [Rack.use]
    cases hs : r.slot? n with
    | none => exact hr
    | some k => exact hr.congr (wiring_start k t) rfl
  | abort n =>
    simp only [Rack.use]
    cases hs : r.slot? n with
    | none => exact hr
    | some k =>
      have wiring : (r.chip.abort k).wiring = r.chip.wiring := by
        rw [wiring_abort, hr.wired.line1_or_mask (hr.backed.held (slot?_eq_some hs))]
      exact hr.congr wiring rfl
  | release n => exact hr.release n
  | complete ch error => exact hr.congr (wiring_complete error) rfl
  | enableQuietly ch => exact hu.elim
  | service => exact hr.congr wiring_service rfl
  | take d =>
    simp only [Rack.use]
    split
    · exact hr.congr rfl rfl
    · exact hr

end Consistency

section Sparing
variable {ch : ChannelId}

/-- The interrupt of a channel that no slot holds does not go to the line. -/
theorem Consistent.unrouted (hr : r.Consistent) (free : ∀ p ∈ r.slots, p.2.id ≠ ch) :
    (r.chip.port ch).routed = false := by
  have bit := hr.wired.line1 ch
  by_contra routed
  obtain ⟨d, other, hd, hv⟩ := bit.1 (Bool.not_eq_false _ ▸ routed)
  obtain ⟨n, k, mem, rfl⟩ := hr.backed.filled hd
  have held := hr.backed.held mem
  rw [← claimed_wiring, hd, Option.some_inj] at held
  exact free _ mem (held ▸ Fin.ext hv)

theorem port_release_of_free (n : Nat) (free : ∀ p ∈ r.slots, p.2.id ≠ ch)
    (unrouted : (r.chip.port ch).routed = false) :
    (r.release n).chip.port ch = r.chip.port ch := by
  unfold Rack.release
  cases hs : r.slot? n with
  | none => rfl
  | some k =>
    have mem := slot?_eq_some hs
    exact port_release_of_unrouted k (Ne.symm (free _ mem)) unrouted

/-- Only the claim of a channel that no slot holds clears its interrupt. -/
theorem Consistent.spares (hr : r.Consistent) (free : ∀ p ∈ r.slots, p.2.id ≠ ch)
    (hu : ∀ n e, u ≠ .claim n ch e) (raised : (r.chip.port ch).raised = true) :
    ((r.use u).2.chip.port ch).raised = true := by
  have unrouted := hr.unrouted free
  cases u with
  | claim n other e =>
    have apart : ch ≠ other := by
      rintro rfl
      exact hu n e rfl
    simp only [Rack.use, Chip.claim]
    cases r.chip.claimed e.dir with
    | some => exact raised
    | none =>
      have routed : (r.chip.route other e.dir).port ch = r.chip.port ch := port_route_of_ne apart
      have spared := port_release_of_free (r := { r.settle (r.chip.route other e.dir) with
        known := e.dir :: r.known }) n free (congrArg Port.routed routed |>.trans unrouted)
      exact (congrArg Port.raised (spared.trans routed)).trans raised
  | start n t =>
    simp only [Rack.use]
    cases hs : r.slot? n with
    | none => exact raised
    | some k =>
      have mem := slot?_eq_some hs
      rw [← port_start_of_unrouted k t (Ne.symm (free _ mem)) unrouted] at raised
      exact raised
  | abort n =>
    simp only [Rack.use]
    cases hs : r.slot? n with
    | none => exact raised
    | some k =>
      have mem := slot?_eq_some hs
      rw [← port_abort_of_unrouted k (Ne.symm (free _ mem)) unrouted] at raised
      exact raised
  | release n =>
    rw [← port_release_of_free n free unrouted] at raised
    exact raised
  | complete other error =>
    by_cases he : ch = other
    · subst he
      have completed : (r.chip.complete ch error).port ch =
          { r.chip.port ch with busy := false, error, raised := true } := by
        rw [complete_eq, port_serveDue, port_raise_self]
        exact Port.served_of_unrouted unrouted
      exact congrArg Port.raised completed
    · rw [← port_complete_of_unrouted error he unrouted] at raised
      exact raised
  | enableQuietly other => exact raised
  | service =>
    have served : r.chip.service.port ch = r.chip.port ch := by
      rw [port_service, Port.served_of_unrouted unrouted]
    rw [← served] at raised
    exact raised
  | take d =>
    simp only [Rack.use]
    split <;> exact raised

end Sparing

section Runs

/-- Nothing is claimed, and no interrupt goes to line 1. -/
structure Fresh (r : Rack) : Prop where
  slots : r.slots = []
  claimed : ∀ d, r.chip.claimed d = none
  line1 : r.chip.enable1 = 0

theorem Fresh.consistent (hr : r.Fresh) : r.Consistent := by
  have unclaimed : ∀ d ch, r.chip.claimed d ≠ some ch := by simp [hr.claimed]
  refine ⟨⟨?_, ?_, ?_⟩, ⟨?_, ?_, ?_, ?_⟩⟩
  · intro d e ch hd
    exact absurd hd (unclaimed d ch)
  · intro d ch hd
    exact absurd hd (unclaimed d ch)
  · intro i
    have bit : r.chip.wiring.line1.getLsbD i = false := by simp [wiring, hr.line1]
    rw [bit]
    constructor
    · simp
    · rintro ⟨d, ch, hd, -⟩
      exact absurd hd (unclaimed d ch)
  · simp [hr.slots]
  · simp [hr.slots]
  · simp [hr.slots]
  · intro d ch hd
    exact absurd hd (unclaimed d ch)

/-- The rack after some uses, the first of them first. -/
def run (r : Rack) : List Use → Rack
  | [] => r
  | u :: us => (r.use u).2.run us

def Permits (r : Rack) : List Use → Prop
  | [] => True
  | u :: us => u.Permitted r ∧ (r.use u).2.Permits us

theorem consistent_run (hr : r.Consistent) (hu : r.Permits us) : (r.run us).Consistent := by
  induction us generalizing r with
  | nil => exact hr
  | cons u us ih =>
    obtain ⟨first, rest⟩ := hu
    exact ih (consistent_use hr first) rest

/-- What holds between two uses of a rack, and what the next use can do. -/
structure Routes (r : Rack) : Prop where
  /-- No direction has two channels. -/
  single : ∀ {m n j k}, (m, j) ∈ r.slots → (n, k) ∈ r.slots → j.endpoint.dir = k.endpoint.dir →
    m = n ∧ j = k
  /-- The claim table names the channels in the slots. -/
  table : ∀ {d ch}, r.chip.claimed d = some ch ↔
    ∃ n k, (n, k) ∈ r.slots ∧ k.endpoint.dir = d ∧ k.id = ch
  /-- Line 1 has their interrupts and no others. -/
  line1 : ∀ i, r.chip.enable1.getLsbD i = true ↔ ∃ n k, (n, k) ∈ r.slots ∧ k.id.val = i
  /-- Line 0 has none of them. -/
  line0 : ∀ {n k}, (n, k) ∈ r.slots → r.chip.enable0.getLsbD k.id = false
  /-- A claim fails if and only if its direction is taken. -/
  refused : ∀ {n ch e}, (r.use (.claim n ch e)).1 = .unavailable ↔
    ∃ m k, (m, k) ∈ r.slots ∧ k.endpoint.dir = e.dir
  /-- A claim that fails changes nothing. -/
  unchanged : ∀ {n ch e}, (r.use (.claim n ch e)).1 = .unavailable → (r.use (.claim n ch e)).2 = r
  /-- A direction that is given back can be claimed again. -/
  reclaimed : ∀ {m n k ch e}, r.slot? n = some k → e.dir = k.endpoint.dir →
    ((r.use (.release n)).2.use (.claim m ch e)).1 = .claimed ⟨ch, e⟩
  /-- Only the claim of a channel that no slot holds clears its interrupt. -/
  spared : ∀ {u : Use} {ch}, (∀ p ∈ r.slots, p.2.id ≠ ch) → (∀ n e, u ≠ .claim n ch e) →
    r.chip.raw.getLsbD ch = true → (r.use u).2.chip.raw.getLsbD ch = true

theorem use_claim_eq (r : Rack) (n : Nat) (ch : ChannelId) (e : Endpoint) :
    (r.use (.claim n ch e)).1 =
      if r.chip.claimed e.dir = none then .claimed ⟨ch, e⟩ else .unavailable := by
  simp only [Rack.use, Chip.claim]
  cases r.chip.claimed e.dir <;> rfl

theorem Consistent.routes (hr : r.Consistent) : r.Routes := by
  have table : ∀ {d ch}, r.chip.claimed d = some ch ↔
      ∃ n k, (n, k) ∈ r.slots ∧ k.endpoint.dir = d ∧ k.id = ch := by
    intro d ch
    constructor
    · intro hd
      obtain ⟨n, k, mem, rfl⟩ := hr.backed.filled hd
      rw [hr.backed.held mem, Option.some_inj] at hd
      exact ⟨n, k, mem, rfl, hd⟩
    · rintro ⟨n, k, mem, rfl, rfl⟩
      exact hr.backed.held mem
  have unavailable : ∀ {n ch e}, (r.use (.claim n ch e)).1 = .unavailable ↔
      r.chip.claimed e.dir ≠ none := by
    intro n ch e
    rw [use_claim_eq]
    by_cases free : r.chip.claimed e.dir = none <;> simp [free]
  constructor
  · intro m n j k hj hk hd
    obtain rfl := hr.backed.single hj hk hd
    exact ⟨rfl, hr.backed.numbered hj hk⟩
  · exact table
  · intro i
    rw [← show r.chip.wiring.line1 = r.chip.enable1 from rfl, hr.wired.line1]
    constructor
    · rintro ⟨d, ch, hd, rfl⟩
      obtain ⟨n, k, mem, -, rfl⟩ := table.1 hd
      exact ⟨n, k, mem, rfl⟩
    · rintro ⟨n, k, mem, rfl⟩
      exact ⟨_, _, hr.backed.held mem, rfl⟩
  · intro n k mem
    exact hr.wired.line0 (hr.backed.held mem)
  · intro n ch e
    rw [unavailable, Option.ne_none_iff_exists']
    constructor
    · rintro ⟨other, hd⟩
      obtain ⟨m, k, mem, dir, -⟩ := table.1 hd
      exact ⟨m, k, mem, dir⟩
    · rintro ⟨m, k, mem, dir⟩
      exact ⟨k.id, dir ▸ hr.backed.held mem⟩
  · intro n ch e refused
    obtain ⟨other, hd⟩ := Option.ne_none_iff_exists'.1 (unavailable.1 refused)
    simp [Rack.use, Chip.claim, hd]
  · intro m n k ch e slot dir
    have given : ((r.use (.release n)).2.chip.wiring).claimed k.endpoint.dir = none := by
      have wiring : (r.use (.release n)).2.chip.wiring =
          r.chip.wiring.release k.id k.endpoint.dir := by
        simp only [Rack.use, Rack.release, slot]
        exact wiring_release k
      rw [wiring]
      exact Function.update_self ..
    rw [claimed_wiring] at given
    rw [use_claim_eq, dir, if_pos given]
  · intro u ch free hu raised
    exact hr.spares free hu raised

/-- Whatever a rack is used for, each direction has one channel at most, the interrupts of the
claimed channels and no others go to line 1, and interrupts of other channels are left alone. -/
theorem routing_consistent (hr : r.Fresh) (hu : r.Permits us) : (r.run us).Routes :=
  (consistent_run hr.consistent hu).routes

/-- Both directions are claimed, used and given back, with a stop that raises an interrupt and a
completion of a channel of someone else. -/
theorem routing_consistent_reclaimed :
    let r : Rack := { chip := { script := { spurious := true } } }
    let us : List Use := [.claim 0 2 ⟨0x50200010, 0, .tx⟩, .claim 1 3 ⟨0x50300020, 12, .rx⟩,
      .start 0 (.fromMemory [7]), .complete 5 true, .service, .abort 1, .release 0,
      .claim 4 6 ⟨0x50200010, 0, .tx⟩]
    r.Fresh ∧ r.Permits us ∧ (r.run us).Routes := by
  have fresh : Fresh { chip := { script := { spurious := true } } } := by
    refine ⟨rfl, ?_, rfl⟩
    intro d
    cases d <;> rfl
  have permits : Permits { chip := { script := { spurious := true } } }
      [.claim 0 2 ⟨0x50200010, 0, .tx⟩, .claim 1 3 ⟨0x50300020, 12, .rx⟩,
        .start 0 (.fromMemory [7]), .complete 5 true, .service, .abort 1, .release 0,
        .claim 4 6 ⟨0x50200010, 0, .tx⟩] := by
    refine ⟨?_, ?_, trivial, trivial, trivial, trivial, trivial, ?_, trivial⟩ <;> decide
  exact ⟨fresh, permits, routing_consistent fresh permits⟩

end Runs

end Rack

end Joybus.Chip
