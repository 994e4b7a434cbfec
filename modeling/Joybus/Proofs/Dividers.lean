import Joybus.Clock

/-! Clock dividers: the calculation loses nothing on the way, and its result is the largest divider
below the exact ratio of the clocks, as far as there is one. -/
namespace Joybus.ClockDivider

variable {source target : BitVec 32} {r : BitVec 64}

theorem toNat_product (source : BitVec 32) :
    (source.setWidth 64 * 256).toNat = 256 * source.toNat := by
  have := source.isLt
  rw [BitVec.toNat_mul, BitVec.toNat_setWidth]
  change source.toNat % 2 ^ 64 * 256 % 2 ^ 64 = 256 * source.toNat
  omega

theorem toNat_ratio (source target : BitVec 32) :
    (ratio source target).toNat = 256 * source.toNat / target.toNat := by
  rw [ratio, BitVec.toNat_udiv, toNat_product, BitVec.toNat_setWidth_of_le (by decide)]

theorem toNat_clamp (r : BitVec 64) : (clamp r).toNat = max 256 (min r.toNat 0xFFFFFF) := by
  unfold clamp
  split
  · next low =>
    have : r.toNat < 256 := low
    change 256 = _
    omega
  · next high =>
    have : ¬ r.toNat < 256 := high
    split
    · next above =>
      have : 0xFFFFFF < r.toNat := above
      change 0xFFFFFF = _
      omega
    · next below =>
      have : ¬ 0xFFFFFF < r.toNat := below
      omega

/-- A ratio below 2^24 fits the parts it is split into. -/
theorem toNat_ofRatio (h : r.toNat ≤ 0xFFFFFF) :
    (ofRatio r).whole.toNat = r.toNat / 256 ∧ (ofRatio r).frac.toNat = r.toNat % 256 := by
  constructor
  · rw [ofRatio, BitVec.toNat_setWidth, BitVec.toNat_ushiftRight, Nat.shiftRight_eq_div_pow]
    omega
  · rw [ofRatio, BitVec.toNat_setWidth, BitVec.toNat_and]
    change (r.toNat &&& 2 ^ 8 - 1) % 2 ^ 8 = _
    rw [Nat.and_two_pow_sub_one_eq_mod]
    omega

theorem toNat_toBits (d : ClockDivider) : d.toBits.toNat = 256 * d.whole.toNat + d.frac.toNat := by
  have := d.frac.isLt
  rw [toBits, BitVec.toNat_append, ← Nat.shiftLeft_add_eq_or_of_lt d.frac.isLt,
    Nat.shiftLeft_eq]
  omega

/-- No step on the way to a divider overflows its word or is cut off. -/
structure Lossless (source target : BitVec 32) : Prop where
  product : (source.setWidth 64 * 256).toNat = 256 * source.toNat
  quotient : (ratio source target).toNat = 256 * source.toNat / target.toNat
  whole : (ofRatio (clamp (ratio source target))).whole.toNat =
    (clamp (ratio source target)).toNat / 256
  frac : (ofRatio (clamp (ratio source target))).frac.toNat =
    (clamp (ratio source target)).toNat % 256

theorem lossless (source target : BitVec 32) : Lossless source target := by
  have kept := toNat_clamp (ratio source target)
  obtain ⟨whole, frac⟩ := toNat_ofRatio (show (clamp (ratio source target)).toNat ≤ 0xFFFFFF by
    omega)
  exact ⟨toNat_product source, toNat_ratio source target, whole, frac⟩

/-- The exact ratio rounded down, or the end of the range it lies beyond. -/
theorem toBits_between (source target : BitVec 32) :
    (between source target).toBits.toNat =
      if target.toNat = 0 then 0xFFFFFF
      else max 256 (min (256 * source.toNat / target.toNat) 0xFFFFFF) := by
  have zero : target = 0 ↔ target.toNat = 0 := by
    rw [← BitVec.toNat_inj]
    rfl
  rw [between]
  split
  · next h => rw [if_pos (zero.1 h), toNat_toBits]; rfl
  · next h =>
    have exact := lossless source target
    rw [if_neg (mt zero.2 h), toNat_toBits, exact.whole, exact.frac, ← exact.quotient,
      ← toNat_clamp]
    omega

theorem toBits_between_mono {source' : BitVec 32} (h : source ≤ source') (target : BitVec 32) :
    (between source target).toBits.toNat ≤ (between source' target).toBits.toNat := by
  have grows : 256 * source.toNat / target.toNat ≤ 256 * source'.toNat / target.toNat :=
    Nat.div_le_div_right (Nat.mul_le_mul_left 256 h)
  rw [toBits_between, toBits_between]
  split <;> omega

theorem toBits_between_anti (source : BitVec 32) {target' : BitVec 32} (h : target ≤ target') :
    (between source target').toBits.toNat ≤ (between source target).toBits.toNat := by
  have le : target.toNat ≤ target'.toNat := h
  rw [toBits_between, toBits_between]
  split
  · next zero =>
    have stopped : target.toNat = 0 := Nat.le_zero.1 (zero ▸ le)
    exact Nat.le_of_eq (if_pos stopped).symm
  · split
    · omega
    · next positive =>
      have shrinks : 256 * source.toNat / target'.toNat ≤ 256 * source.toNat / target.toNat :=
        Nat.div_le_div_left le (by omega)
      omega

/-- `d`, in units of 1/256, is the largest divider not above the exact ratio `s / t` of two clocks,
where the exact ratio is in the range of dividers, and the nearer end of the range where it is not.
A target of zero counts as beyond the upper end. -/
structure Best (s t d : Nat) : Prop where
  in_range : 256 ≤ d ∧ d ≤ 0xFFFFFF
  stopped : t = 0 → d = 0xFFFFFF
  below : 0 < t → 256 * s < 256 * t → d = 256
  within : 0 < t → 256 * t ≤ 256 * s → 256 * s < 0x1000000 * t →
    d * t ≤ 256 * s ∧ 256 * s < (d + 1) * t
  above : 0 < t → 0x1000000 * t ≤ 256 * s → d = 0xFFFFFF

theorem best_between (source target : BitVec 32) :
    Best source.toNat target.toNat (between source target).toBits.toNat := by
  have exact := toBits_between source target
  revert exact
  generalize (between source target).toBits.toNat = d, source.toNat = s, target.toNat = t
  intro exact
  by_cases zero : t = 0
  · rw [if_pos zero] at exact
    exact ⟨by omega, fun _ => exact, by omega, by omega, by omega⟩
  · have positive : 0 < t := Nat.pos_of_ne_zero zero
    rw [if_neg zero] at exact
    have low : 256 ≤ 256 * s / t ↔ 256 * t ≤ 256 * s := Nat.le_div_iff_mul_le positive
    have high : 256 * s / t < 0x1000000 ↔ 256 * s < 0x1000000 * t :=
      Nat.div_lt_iff_lt_mul positive
    refine ⟨by omega, by omega, fun _ slow => by omega, fun _ slow fast => ?_,
      fun _ fast => by omega⟩
    have inside : d = 256 * s / t := by omega
    rw [inside, Nat.mul_comm (256 * s / t + 1)]
    exact ⟨Nat.div_mul_le_self .., Nat.lt_mul_div_succ _ positive⟩

/-- The divider of two clocks is the best one of the range, and is worked out without a loss. A
faster source never has a smaller divider, and a faster target never a larger one. -/
theorem divider_best_in_range (source target : BitVec 32) :
    Best source.toNat target.toNat (between source target).toBits.toNat ∧
    Lossless source target ∧
    (∀ source', source ≤ source' →
      (between source target).toBits.toNat ≤ (between source' target).toBits.toNat) ∧
    ∀ target', target ≤ target' →
      (between source target').toBits.toNat ≤ (between source target).toBits.toNat :=
  ⟨best_between source target, lossless source target,
    fun _ faster => toBits_between_mono faster target,
    fun _ faster => toBits_between_anti source faster⟩

end Joybus.ClockDivider
