import Joybus.Proofs.Unpacking
import Joybus.WordStream

/-! The line from one side to the other: the bytes that a word stream carries, and the words of
samples that come in for them through noise. -/
namespace Joybus

namespace Sample

/-- The number of samples of bit `i` that the noise flips. -/
def flips (noise : Word) (i : Nat) : Nat :=
  (noise.getLsbD (3 * i)).toNat + (noise.getLsbD (3 * i + 1)).toNat +
    (noise.getLsbD (3 * i + 2)).toNat

/-- The word has the samples of the byte, with at most one flipped for each bit. Its top eight bits
are no samples. -/
def Carries (samples : Word) (b : Byte) : Prop := ∀ i < 8, flips (oversample b ^^^ samples) i ≤ 1

instance (samples : Word) (b : Byte) : Decidable (Carries samples b) :=
  inferInstanceAs (Decidable (∀ i < 8, flips (oversample b ^^^ samples) i ≤ 1))

theorem majority_xor (v a b c : Bool) : majority (v ^^ a) (v ^^ b) (v ^^ c) =
    (v ^^ decide (2 ≤ a.toNat + b.toNat + c.toNat)) := by
  cases v <;> cases a <;> cases b <;> cases c <;> rfl

/-- A bit is misread if and only if noise flips two of its samples. -/
theorem bit_noisy (b : Byte) (noise : Word) {i : Nat} (hi : i < 8) :
    bit (oversample b ^^^ noise) i = (b.getLsbD i ^^ decide (2 ≤ flips noise i)) := by
  have zero := getLsbD_oversample b hi (k := 0) (by omega)
  have one := getLsbD_oversample b hi (k := 1) (by omega)
  have two := getLsbD_oversample b hi (k := 2) (by omega)
  simp only [bit, BitVec.getLsbD_xor, one, two]
  rw [Nat.add_zero] at zero
  rw [zero, majority_xor, flips]

/-- A bit is decoded wrong if and only if noise flips two of its samples. -/
theorem misread_iff (b : Byte) (noise : Word) {i : Nat} (hi : i < 8) :
    (decode (oversample b ^^^ noise)).getLsbD i ≠ b.getLsbD i ↔ 2 ≤ flips noise i := by
  rw [getLsbD_decode _ hi, bit_noisy b noise hi]
  by_cases many : 2 ≤ flips noise i
  · rw [decide_eq_true many, Bool.xor_true]
    exact iff_of_true (Bool.not_not_eq.2 rfl) many
  · rw [decide_eq_false many, Bool.xor_false]
    exact iff_of_false (fun misread => misread rfl) many

/-- A byte is decoded right if and only if noise flips no more than one sample of each bit. -/
theorem decode_noisy_iff {b : Byte} {noise : Word} :
    decode (oversample b ^^^ noise) = b ↔ ∀ i < 8, flips noise i ≤ 1 := by
  constructor
  · intro decoded i hi
    have right : ¬ 2 ≤ flips noise i :=
      fun many => (misread_iff b noise hi).2 many (by rw [decoded])
    omega
  · intro few
    apply BitVec.eq_of_getLsbD_eq
    intro i hi
    have right : ¬ 2 ≤ flips noise i := by
      have one := few i hi
      omega
    exact Decidable.not_not.1 (mt (misread_iff b noise hi).1 right)

/-- A word is decoded to the byte it carries. -/
theorem Carries.decode_eq {samples : Word} {b : Byte} (hc : Carries samples b) :
    decode samples = b := by
  have back : oversample b ^^^ (oversample b ^^^ samples) = samples := by
    rw [← BitVec.xor_assoc, BitVec.xor_self, BitVec.zero_xor]
  rw [← back]
  exact decode_noisy_iff.2 hc

end Sample

theorem Packing.take_unpack {bytes : List Byte} {words : List Word}
    (hl : bytes.length ≤ words.length)
    (hc : ∀ p ∈ words.zip bytes, Sample.Carries p.1 p.2) :
    (words.flatMap Packing.one.unpack).take bytes.length = bytes := by
  induction bytes generalizing words with
  | nil => rfl
  | cons b bytes ih =>
    cases words with
    | nil => simp at hl
    | cons w words =>
      have head := hc (w, b) (by simp)
      have rest : ∀ p ∈ words.zip bytes, Sample.Carries p.1 p.2 := by
        intro p hp
        exact hc p (by simp [hp])
      have tail := ih (by simpa using hl) rest
      simp only [List.flatMap_cons, Packing.unpack, head.decode_eq, List.singleton_append,
        List.length_cons, List.take_succ_cons, List.cons.injEq, true_and]
      exact tail

/-- Words that carry the bytes of a frame, one each, are decoded to the frame. -/
theorem Packing.decodeFrame_one {f : Frame} {words : List Word} (hl : f.length ≤ words.length)
    (hc : ∀ p ∈ words.zip f.bytes, Sample.Carries p.1 p.2) :
    Packing.one.decodeFrame words f.length = f := by
  apply Frame.ext
  rw [Packing.decodeFrame_unpack, Frame.length, Nat.min_eq_left f.length_le]
  exact Packing.take_unpack hl hc

namespace Packing
variable {p : Packing} {len : Nat} {words more : List Word}

theorem length_decodeFrame (hw : p.wordCount len ≤ words.length) (hl : len ≤ 32) :
    (p.decodeFrame words len).length = len := by
  have enough : len ≤ p.bytesPerWord * words.length := by
    cases p with
    | one =>
      simp only [wordCount, bytesPerWord] at hw ⊢
      omega
    | two =>
      simp only [wordCount, bytesPerWord] at hw ⊢
      omega
  rw [length_decodeFrame_eq]
  omega

/-- Words beyond those that it takes do not matter. -/
theorem decodeFrame_append (hw : p.wordCount len ≤ words.length) :
    p.decodeFrame (words ++ more) len = p.decodeFrame words len :=
  decodeFrame_congr (List.take_append_of_le_length hw)

end Packing

namespace WordStream

/-- The bytes of a word, the most significant one first. -/
def bytes (w : Word) : List Byte :=
  [w.extractLsb' 24 8, w.extractLsb' 16 8, w.extractLsb' 8 8, w.extractLsb' 0 8]

/-- The bytes that a stream makes the transmit program send: the first bytes of its payload, as many
as its header counts. -/
def carried : List Word → List Byte
  | [] => []
  | header :: words => (words.flatMap bytes).take ((header.toNat + 1) / 8)

theorem bytes_word (a b c d : Byte) : bytes (word a b c d) = [a, b, c, d] := by
  have first : (a ++ b ++ c ++ d).extractLsb' 24 8 = a := by
    rw [BitVec.extractLsb'_append_eq_of_le (by omega),
      BitVec.extractLsb'_append_eq_of_le (by omega), BitVec.extractLsb'_append_eq_left]
  have second : (a ++ b ++ c ++ d).extractLsb' 16 8 = b := by
    rw [BitVec.extractLsb'_append_eq_of_le (by omega),
      BitVec.extractLsb'_append_eq_of_le (by omega), BitVec.extractLsb'_append_eq_right]
  have third : (a ++ b ++ c ++ d).extractLsb' 8 8 = c := by
    rw [BitVec.extractLsb'_append_eq_of_le (by omega), BitVec.extractLsb'_append_eq_right]
  have fourth : (a ++ b ++ c ++ d).extractLsb' 0 8 = d := BitVec.extractLsb'_append_eq_right
  change [(a ++ b ++ c ++ d).extractLsb' 24 8, (a ++ b ++ c ++ d).extractLsb' 16 8,
    (a ++ b ++ c ++ d).extractLsb' 8 8, (a ++ b ++ c ++ d).extractLsb' 0 8] = _
  rw [first, second, third, fourth]

theorem take_payload (bs : List Byte) : ((payload bs).flatMap bytes).take bs.length = bs := by
  fun_induction payload bs with
  | case1 => rfl
  | case2 a => simp [bytes_word]
  | case3 a b => simp [bytes_word]
  | case4 a b c => simp [bytes_word]
  | case5 a b c d rest ih => simpa [bytes_word] using ih

theorem header_toNat {len : Nat} (h1 : 1 ≤ len) (hl : len ≤ 32) :
    ((header len).toNat + 1) / 8 = len := by
  rw [header, BitVec.toNat_ofNat]
  omega

/-- The stream of a frame carries the frame. -/
theorem carried_stream {bs : List Byte} (h1 : 1 ≤ bs.length) (hl : bs.length ≤ 32) :
    carried (header bs.length :: payload bs) = bs := by
  rw [carried, header_toNat h1 hl, take_payload]

end WordStream

end Joybus
