import Joybus.Proofs.Noise

/-! Which frames a packing can carry. With two bytes to a word their windows overlap, and some pairs
of bytes ask opposite things of the samples they share. -/
namespace Joybus

namespace Sample
variable {a b : Byte} {w : Word} {i j k : Nat}

/-- Four samples in a row make two triplets. If these decide differently, the first and the last
sample are each on the side of their own triplet. -/
theorem majority_apart {x y z u : Bool} (h : majority x y z ≠ majority y z u) :
    x = majority x y z ∧ u = majority y z u := by
  cases x <;> cases y <;> cases z <;> cases u <;> simp_all [majority]

/-- Two samples on one side decide. -/
theorem majority_pair {x y z v : Bool} (h : x = v ∧ y = v ∨ y = v ∧ z = v ∨ x = v ∧ z = v) :
    majority x y z = v := by
  cases x <;> cases y <;> cases z <;> cases v <;> simp_all [majority]

/-- The upper window starts at the last sample of a triplet of the lower one. -/
theorem bit_upper (w : Word) (i : Nat) : bit (w >>> 8) i = majority (w.getLsbD (3 * (i + 2) + 2))
    (w.getLsbD (3 * (i + 3))) (w.getLsbD (3 * (i + 3) + 1)) := by
  have first : 8 + 3 * i = 3 * (i + 2) + 2 := by omega
  have second : 8 + (3 * i + 1) = 3 * (i + 3) := by omega
  have third : 8 + (3 * i + 2) = 3 * (i + 3) + 1 := by omega
  rw [bit, BitVec.getLsbD_ushiftRight, BitVec.getLsbD_ushiftRight, BitVec.getLsbD_ushiftRight,
    first, second, third]

/-- Bits `i` and `i + 1` of the upper byte are equal, and bits `i + 3` and `i + 4` of the lower
byte, whose samples overlap with theirs, are the opposite. -/
def Clash (a b : Byte) (i : Nat) : Prop :=
  a.getLsbD i = a.getLsbD (i + 1) ∧ b.getLsbD (i + 3) = b.getLsbD (i + 4) ∧
    a.getLsbD i ≠ b.getLsbD (i + 3)

instance (a b : Byte) (i : Nat) : Decidable (Clash a b i) :=
  inferInstanceAs (Decidable (_ ∧ _ ∧ _))

/-- No word has clashing bytes in its windows: the sample between the two overlaps would have to be
on both sides. -/
theorem not_clash (w : Word) (hi : i < 4) : ¬ Clash (decode (w >>> 8)) (decode w) i := by
  rintro ⟨same, alike, apart⟩
  rw [getLsbD_decode _ (by omega), getLsbD_decode _ (by omega)] at same alike apart
  have apart' : bit (w >>> 8) (i + 1) ≠ bit w (i + 4) := by rwa [← same, ← alike]
  have here : w.getLsbD (3 * (i + 3) + 2) = bit w (i + 3) := by
    rw [bit_upper] at apart
    exact (majority_apart apart).2
  have there : w.getLsbD (3 * (i + 3) + 2) = bit (w >>> 8) (i + 1) := by
    rw [bit_upper] at apart' ⊢
    exact (majority_apart apart').1
  exact apart (same.trans (there.symm.trans here))

/-- Sample `k` of triplet `j` in a word for two bytes. The first sample is for the upper byte and
the second for the lower one. The third is for the lower byte if the first was given away against it,
and else for the next bit of the upper byte. -/
def overlay (a b : Byte) (j : Nat) : Nat → Bool
  | 0 => if j < 3 then b.getLsbD j else a.getLsbD (j - 3)
  | 1 => if j < 8 then b.getLsbD j else a.getLsbD (j - 3)
  | _ => if 3 ≤ j ∧ j < 8 ∧ a.getLsbD (j - 3) ≠ b.getLsbD j then b.getLsbD j else a.getLsbD (j - 2)

/-- A word with the first byte in its upper window and the second in its lower one. -/
def overlaid (a b : Byte) : Word := gather (fun n => overlay a b (n / 3) (n % 3)) 32

theorem getLsbD_overlaid (a b : Byte) (hk : k < 3) (hj : 3 * j + k < 32) :
    (overlaid a b).getLsbD (3 * j + k) = overlay a b j k := by
  have quot : (3 * j + k) / 3 = j := by omega
  have rem : (3 * j + k) % 3 = k := by omega
  rw [overlaid, getLsbD_gather, decide_eq_true hj, Bool.true_and, quot, rem]

/-- The lower byte gets two samples of each of its triplets. -/
theorem decode_overlaid_lower (a b : Byte) : decode (overlaid a b) = b := by
  apply BitVec.eq_of_getLsbD_eq
  intro j hj
  have first := getLsbD_overlaid a b (j := j) (k := 0) (by omega) (by omega)
  rw [Nat.add_zero] at first
  rw [getLsbD_decode _ hj, bit, first, getLsbD_overlaid a b (by omega) (by omega),
    getLsbD_overlaid a b (by omega) (by omega)]
  apply majority_pair
  have second : overlay a b j 1 = b.getLsbD j := if_pos hj
  by_cases low : j < 3
  · exact .inl ⟨if_pos low, second⟩
  · by_cases given : a.getLsbD (j - 3) = b.getLsbD j
    · exact .inl ⟨(if_neg low).trans given, second⟩
    · exact .inr (.inl ⟨second, if_pos ⟨by omega, hj, given⟩⟩)

/-- Where its own bit is against it, the upper byte has the sample before, unless the two clash. -/
theorem overlay_before (h : ∀ i < 4, ¬ Clash a b i) (hi : i + 3 < 8)
    (against : a.getLsbD i ≠ b.getLsbD (i + 3)) : overlay a b (i + 2) 2 = a.getLsbD i := by
  by_cases taken : 3 ≤ i + 2 ∧ i + 2 < 8 ∧ a.getLsbD (i + 2 - 3) ≠ b.getLsbD (i + 2)
  · cases i with
    | zero => omega
    | succ i =>
      have before : a.getLsbD i ≠ b.getLsbD (i + 3) := taken.2.2
      refine (if_pos taken).trans (Decidable.not_not.1 fun apart => h i (by omega) ?_)
      have apart : b.getLsbD (i + 3) ≠ a.getLsbD (i + 1) := apart
      refine ⟨?_, ?_, before⟩
      · exact (Bool.eq_not.2 before).trans (Bool.eq_not.2 apart.symm).symm
      · exact (Bool.eq_not.2 apart).trans (Bool.eq_not.2 against.symm).symm
  · exact if_neg taken

/-- The upper byte gets two samples of each of its triplets if the two do not clash. -/
theorem decode_overlaid_upper (h : ∀ i < 4, ¬ Clash a b i) : decode (overlaid a b >>> 8) = a := by
  apply BitVec.eq_of_getLsbD_eq
  intro i hi
  have second := getLsbD_overlaid a b (j := i + 3) (k := 0) (by omega) (by omega)
  rw [Nat.add_zero] at second
  rw [getLsbD_decode _ hi, bit_upper, second, getLsbD_overlaid a b (by omega) (by omega),
    getLsbD_overlaid a b (by omega) (by omega)]
  apply majority_pair
  have own : overlay a b (i + 3) 0 = a.getLsbD i := by
    rw [overlay, if_neg (by omega), Nat.add_sub_cancel]
  by_cases shared : i + 3 < 8
  · by_cases alike : a.getLsbD i = b.getLsbD (i + 3)
    · exact .inr (.inl ⟨own, (if_pos shared).trans alike.symm⟩)
    · exact .inl ⟨overlay_before h shared alike, own⟩
  · exact .inr (.inl ⟨own, if_neg shared⟩)

/-- The pairs of bytes that stand in the windows of some word. -/
theorem exists_word_iff :
    (∃ w : Word, decode (w >>> 8) = a ∧ decode w = b) ↔ ∀ i < 4, ¬ Clash a b i := by
  constructor
  · rintro ⟨w, rfl, rfl⟩ i hi
    exact not_clash w hi
  · intro h
    exact ⟨overlaid a b, decode_overlaid_upper h, decode_overlaid_lower a b⟩

/-- The upper window can have any byte. -/
theorem exists_word_upper (a : Byte) : ∃ w : Word, decode (w >>> 8) = a := by
  -- the lower byte repeats the upper one three places up
  obtain ⟨w, upper, -⟩ := exists_word_iff.2 (show ∀ i < 4, ¬ Clash a (a <<< 3) i by
    rintro i hi ⟨-, -, apart⟩
    apply apart
    rw [BitVec.getLsbD_shiftLeft]
    simp [show i + 3 < 8 by omega])
  exact ⟨w, upper⟩

end Sample

namespace Packing
variable {bytes : List Byte}

/-- There are words, as many as it takes to receive the bytes, that are decoded to them. -/
def CanCarry (p : Packing) (bytes : List Byte) : Prop :=
  ∃ words : List Word, words.length = p.wordCount bytes.length ∧
    (p.decodeFrame words bytes.length).bytes = bytes

/-- The two bytes of each word do not clash. The last byte of an odd number has a word for
itself. -/
def Compatible : List Byte → Prop
  | a :: b :: rest => (∀ i < 4, ¬ Sample.Clash a b i) ∧ Compatible rest
  | _ => True

theorem canCarry_iff {p : Packing} (hl : bytes.length ≤ 32) : p.CanCarry bytes ↔
    ∃ words : List Word, words.length = p.wordCount bytes.length ∧
      (words.flatMap p.unpack).take bytes.length = bytes := by
  simp only [CanCarry, decodeFrame_unpack, Nat.min_eq_left hl]

theorem one_canCarry (hl : bytes.length ≤ 32) : Packing.one.CanCarry bytes := by
  refine (canCarry_iff hl).2 ⟨bytes.map Sample.oversample, by simp [wordCount, bytesPerWord], ?_⟩
  rw [unpack_one, List.map_map, List.take_of_length_le (by simp)]
  exact List.map_id'' Sample.decode_oversample bytes

/-- Word by word, the two windows. -/
theorem two_words_iff (bytes : List Byte) :
    (∃ words : List Word, words.length = Packing.two.wordCount bytes.length ∧
      (words.flatMap Packing.two.unpack).take bytes.length = bytes) ↔ Compatible bytes := by
  induction bytes using Compatible.induct with
  | case1 a b rest ih =>
    have count : Packing.two.wordCount (a :: b :: rest).length =
        Packing.two.wordCount rest.length + 1 := by
      simp only [wordCount, bytesPerWord, List.length_cons]
      omega
    rw [Compatible, ← ih, ← Sample.exists_word_iff, count]
    constructor
    · rintro ⟨words, hw, decoded⟩
      obtain ⟨w, words, rfl⟩ := List.exists_cons_of_length_eq_add_one hw
      simp only [List.flatMap_cons, unpack, List.cons_append, List.nil_append, List.length_cons,
        List.take_succ_cons, List.cons.injEq] at decoded
      exact ⟨⟨w, decoded.1, decoded.2.1⟩, words, by simpa using hw, decoded.2.2⟩
    · rintro ⟨⟨w, upper, lower⟩, words, hw, decoded⟩
      refine ⟨w :: words, by simpa using hw, ?_⟩
      simp only [List.flatMap_cons, unpack, List.cons_append, List.nil_append, List.length_cons,
        List.take_succ_cons, upper, lower, decoded]
  | case2 bytes short =>
    cases bytes with
    | nil => exact ⟨fun _ => trivial, fun _ => ⟨[], rfl, rfl⟩⟩
    | cons a rest =>
      cases rest with
      | cons b rest => exact absurd rfl (short a b rest)
      | nil =>
        obtain ⟨w, upper⟩ := Sample.exists_word_upper a
        have one : [w].length = Packing.two.wordCount [a].length := by
          simp [wordCount, bytesPerWord]
        exact ⟨fun _ => trivial, fun _ => ⟨[w], one, by simp [unpack, upper]⟩⟩

/-- One byte to a word, every frame can be carried. Two bytes to a word, a frame can be carried if
and only if the bytes that share a word do not clash. -/
theorem carried_iff_compatible (hl : bytes.length ≤ 32) :
    Packing.one.CanCarry bytes ∧ (Packing.two.CanCarry bytes ↔ Compatible bytes) :=
  ⟨one_canCarry hl, (canCarry_iff hl).trans (two_words_iff bytes)⟩

/-- Three bytes, of which two share a word. -/
theorem carried_iff_compatible_triple :
    let bytes : List Byte := [0x5a, 0xc3, 0xff]
    bytes.length ≤ 32 ∧ Compatible bytes ∧ Packing.one.CanCarry bytes ∧
      Packing.two.CanCarry bytes := by
  intro bytes
  have compatible : Compatible bytes := ⟨by decide, trivial⟩
  have short : bytes.length ≤ 32 := by decide
  have carried := carried_iff_compatible short
  exact ⟨short, compatible, carried.1, carried.2.2 compatible⟩

/-- Two bytes to a word, a zero cannot be followed by a byte of ones. -/
theorem not_every_frame_carried :
    ¬ ∀ (p : Packing) (bytes : List Byte), bytes.length ≤ 32 → p.CanCarry bytes := by
  intro every
  have carried := (canCarry_iff (by decide)).1 (every .two [0x00, 0xff] (by decide))
  exact ((two_words_iff _).1 carried).1 0 (by decide) (by decide)

end Packing

end Joybus
