import Joybus.Proofs.Line

/-! Which noise the majority of three samples makes up for: bit by bit, and for whole frames. -/
namespace Joybus

namespace Sample
variable {i : Nat}

theorem flips_xor_top (noise : Word) (top : Byte) (hi : i < 8) :
    flips (noise ^^^ (top ++ 0#24)) i = flips noise i := by
  have low : ∀ k < 24, (noise ^^^ (top ++ 0#24)).getLsbD k = noise.getLsbD k := by
    intro k hk
    rw [BitVec.getLsbD_xor, BitVec.getLsbD_append, if_pos hk, BitVec.getLsbD_zero, Bool.xor_false]
  rw [flips, low _ (by omega), low _ (by omega), low _ (by omega), flips]

/-- What noise does to the top eight bits of a word of samples does not matter. -/
theorem decode_noisy_top (b : Byte) (noise : Word) (top : Byte) :
    decode (oversample b ^^^ (noise ^^^ (top ++ 0#24))) = decode (oversample b ^^^ noise) := by
  apply BitVec.eq_of_getLsbD_eq
  intro i hi
  rw [getLsbD_decode _ hi, getLsbD_decode _ hi, bit_noisy b _ hi, bit_noisy b _ hi,
    flips_xor_top noise top hi]

end Sample

namespace Packing
variable {bytes : List Byte} {noise : List Word}

/-- The words in which bytes come in, one each, when noise flips the samples under its ones. -/
def noisy (bytes : List Byte) (noise : List Word) : List Word :=
  bytes.zipWith (fun b flipped => Sample.oversample b ^^^ flipped) noise

theorem unpack_one (words : List Word) :
    words.flatMap Packing.one.unpack = words.map Sample.decode :=
  List.map_eq_flatMap.symm

/-- Every byte is decoded by itself. -/
theorem map_decode_noisy (hn : noise.length = bytes.length) :
    (noisy bytes noise).map Sample.decode = bytes ↔
      ∀ flipped ∈ noise, ∀ i < 8, Sample.flips flipped i ≤ 1 := by
  induction bytes generalizing noise with
  | nil =>
    obtain rfl := List.length_eq_zero_iff.1 hn
    simp [noisy]
  | cons b bytes ih =>
    obtain ⟨flipped, noise, rfl⟩ := List.exists_cons_of_length_eq_add_one hn
    have rest := ih (Nat.succ.inj hn)
    rw [noisy] at rest ⊢
    rw [List.zipWith_cons_cons, List.map_cons, List.cons.injEq, Sample.decode_noisy_iff, rest,
      List.forall_mem_cons]

theorem decodeFrame_noisy (hl : bytes.length ≤ 32) (hn : noise.length = bytes.length) :
    (Packing.one.decodeFrame (noisy bytes noise) bytes.length).bytes =
      (noisy bytes noise).map Sample.decode := by
  have whole : ((noisy bytes noise).map Sample.decode).length ≤ min bytes.length 32 := by
    rw [List.length_map, noisy, List.length_zipWith]
    omega
  rw [decodeFrame_unpack, unpack_one, List.take_of_length_le whole]

/-- A frame that comes in one byte to a word is decoded right if and only if noise flips no more
than one sample of each bit. A bit is decoded wrong if and only if it flips more, and the top eight
bits of a word are no samples. -/
theorem noise_corrected_iff :
    (∀ {bytes : List Byte} {noise : List Word}, bytes.length ≤ 32 → noise.length = bytes.length →
      ((Packing.one.decodeFrame (noisy bytes noise) bytes.length).bytes = bytes ↔
        ∀ flipped ∈ noise, ∀ i < 8, Sample.flips flipped i ≤ 1)) ∧
    ∀ (b : Byte) (flipped : Word),
      (∀ i < 8, (Sample.decode (Sample.oversample b ^^^ flipped)).getLsbD i ≠ b.getLsbD i ↔
        2 ≤ Sample.flips flipped i) ∧
      ∀ top : Byte, Sample.decode (Sample.oversample b ^^^ (flipped ^^^ (top ++ 0#24))) =
        Sample.decode (Sample.oversample b ^^^ flipped) := by
  refine ⟨?_, ?_⟩
  · intro bytes noise hl hn
    rw [decodeFrame_noisy hl hn]
    exact map_decode_noisy hn
  · intro b flipped
    exact ⟨fun i hi => Sample.misread_iff b flipped hi, Sample.decode_noisy_top b flipped⟩

/-- One sample of every bit of the first byte is flipped, and two of the lowest bit of the second:
the frame is not decoded right. -/
theorem noise_corrected_iff_pair :
    let bytes : List Byte := [0xa5, 0x3c]
    let noise : List Word := [0xff492492, 0x00000005]
    bytes.length ≤ 32 ∧ noise.length = bytes.length ∧
      (Packing.one.decodeFrame (noisy bytes noise) bytes.length).bytes ≠ bytes ∧
      (Sample.decode (Sample.oversample 0x3c ^^^ 0x00000005)).getLsbD 0 ≠
        (0x3c : Byte).getLsbD 0 := by
  intro bytes noise
  have short : bytes.length ≤ 32 := by decide
  have each : noise.length = bytes.length := by decide
  refine ⟨short, each, ?_, ?_⟩
  · intro decoded
    have few := (noise_corrected_iff.1 short each).1 decoded
    exact absurd (few 0x00000005 (by decide) 0 (by decide)) (by decide)
  · exact ((noise_corrected_iff.2 0x3c 0x00000005).1 0 (by decide)).2 (by decide)

end Packing

end Joybus
