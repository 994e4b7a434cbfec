import Joybus.Bits

/-!
Oversampled bytes. The receive program samples every bit of a byte three times; a received word
carries the 24 samples of one byte in its low bits, the samples of the most significant bit first.
-/

namespace Joybus.Sample

/-- The value at least two of three samples agree on. -/
def majority (a b c : Bool) : Bool :=
  (a && b) || (a && c) || (b && c)

/-- The three samples of bit `i`, counted from the least significant bit, decide that bit. -/
def bit (samples : Word) (i : Nat) : Bool :=
  majority (samples.getLsbD (3 * i)) (samples.getLsbD (3 * i + 1)) (samples.getLsbD (3 * i + 2))

/-- One sample, in the lowest place. -/
def sample (samples : Word) (i : Nat) : Word := samples >>> i &&& 1

/-- The bit that three samples decide, in the lowest place. The first of them is sample `base`, and
the others are in the two places below. -/
def vote (samples : Word) (base : Nat) : Byte :=
  let s0 := sample samples base
  let s1 := sample samples (base - 1)
  let s2 := sample samples (base - 2)
  (s0 &&& s1 ||| s1 &&& s2 ||| s2 &&& s0).setWidth 8

/-- The byte a word of samples carries, one bit shifted in after the other. The top eight bits of
the word play no part. -/
def decode (samples : Word) : Byte :=
  (List.range 8).foldl (fun out i => out <<< 1 ||| vote samples (23 - 3 * i)) 0

/-- Bit `i` of a byte three times, in the lowest places. -/
def thrice (b : Byte) (i : Nat) : Word := (b >>> i &&& 1).setWidth 32 * 0b111

/-- The word of samples a noiseless line delivers for a byte: every bit three times. -/
def oversample (b : Byte) : Word :=
  (List.range 8).foldl (fun out i => out <<< 3 ||| thrice b (7 - i)) 0

theorem getLsbD_sample (samples : Word) (i n : Nat) :
    (sample samples i).getLsbD n = (decide (n = 0) && samples.getLsbD i) := by
  cases n <;> simp [sample, BitVec.getLsbD_one]

theorem getLsbD_vote (samples : Word) (i n : Nat) :
    (vote samples (3 * i + 2)).getLsbD n = (decide (n = 0) && bit samples i) := by
  have lower : 3 * i + 2 - 1 = 3 * i + 1 ∧ 3 * i + 2 - 2 = 3 * i := by omega
  simp only [vote, lower, BitVec.getLsbD_setWidth, BitVec.getLsbD_or, BitVec.getLsbD_and,
    getLsbD_sample, bit, majority]
  by_cases hn : n = 0
  · subst hn
    cases samples.getLsbD (3 * i) <;> cases samples.getLsbD (3 * i + 1) <;>
      cases samples.getLsbD (3 * i + 2) <;> rfl
  · simp [hn]

/-- The byte that is read is given by the votes on its bits. -/
theorem decode_eq_gather (samples : Word) : decode samples = gather (bit samples) 8 := by
  apply BitVec.eq_of_getLsbD_eq
  intro i hi
  have single : ∀ j, ∀ n ≥ 1, (vote samples (23 - 3 * j)).getLsbD n = false := by
    intro j n hn
    have high : n ≠ 0 := by omega
    simp [vote, getLsbD_sample, high]
  have place := getLsbD_foldl_shiftLeft_or (i := i) (r := 0) 8 _ single (by omega) (by omega)
  have base : 23 - 3 * (8 - 1 - i) = 3 * i + 2 := by omega
  rw [Nat.one_mul, Nat.add_zero, base, getLsbD_vote] at place
  rw [decode, place, getLsbD_gather]
  rfl

theorem getLsbD_decode (samples : Word) {i : Nat} (hi : i < 8) :
    (decode samples).getLsbD i = bit samples i := by
  rw [decode_eq_gather, getLsbD_gather, decide_eq_true hi, Bool.true_and]

theorem getLsbD_thrice (b : Byte) (i n : Nat) :
    (thrice b i).getLsbD n = (decide (n < 3) && b.getLsbD i) := by
  have lowest : b >>> i &&& 1 = if b.getLsbD i then 1 else 0 := by
    apply BitVec.eq_of_getLsbD_eq
    intro j _
    by_cases hj : j = 0 <;> cases hb : b.getLsbD i <;> simp [hj, hb, BitVec.getLsbD_one]
  have ones : (0b111 : Word) = (BitVec.allOnes 3).setWidth 32 := by decide
  rw [thrice, lowest]
  cases b.getLsbD i with
  | false => simp
  | true =>
    rw [if_pos rfl, show (1 : Byte).setWidth 32 * 0b111 = (0b111 : Word) by decide, ones,
      BitVec.getLsbD_setWidth, BitVec.getLsbD_allOnes, Bool.and_true]
    by_cases hn : n < 3
    · simp [hn, show n < 32 by omega]
    · simp [hn]

/-- The samples of a byte are given by its bits. -/
theorem oversample_eq_gather (b : Byte) :
    oversample b = gather (fun i => b.getLsbD (i / 3)) 32 := by
  apply BitVec.eq_of_getLsbD_eq
  intro n hn
  have triple : ∀ j, ∀ l ≥ 3, (thrice b (7 - j)).getLsbD l = false := by
    intro j l hl
    rw [getLsbD_thrice, decide_eq_false (by omega), Bool.false_and]
  have split := Nat.div_add_mod n 3
  have rest := Nat.mod_lt n (show 0 < 3 by decide)
  have place := getLsbD_foldl_shiftLeft_or (i := n / 3) 8 _ triple rest (by omega)
  rw [split, getLsbD_thrice, decide_eq_true rest, Bool.true_and] at place
  rw [oversample, place, getLsbD_gather, decide_eq_true hn, Bool.true_and]
  by_cases inside : n / 3 < 8
  · rw [decide_eq_true inside, Bool.true_and, show 7 - (8 - 1 - n / 3) = n / 3 by omega]
  · rw [decide_eq_false inside, Bool.false_and, BitVec.getLsbD_of_ge _ _ (by omega)]

theorem getLsbD_oversample (b : Byte) {i k : Nat} (hi : i < 8) (hk : k < 3) :
    (oversample b).getLsbD (3 * i + k) = b.getLsbD i := by
  have quot : (3 * i + k) / 3 = i := by omega
  rw [oversample_eq_gather, getLsbD_gather, quot, decide_eq_true (by omega : 3 * i + k < 32),
    Bool.true_and]

/-- A noiseless line is decoded exactly. -/
theorem decode_oversample (b : Byte) : decode (oversample b) = b := by
  apply BitVec.eq_of_getLsbD_eq
  intro i hi
  have zero := getLsbD_oversample b hi (k := 0) (by omega)
  rw [Nat.add_zero] at zero
  rw [getLsbD_decode _ hi, bit, zero, getLsbD_oversample b hi (by omega),
    getLsbD_oversample b hi (by omega)]
  simp [majority]

end Joybus.Sample
