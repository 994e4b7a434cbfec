import Joybus.Proofs.Line
import Joybus.Proofs.Ranges

/-! The word stream of a frame is exactly what its header says: the bits of the frame, the most
significant one of each byte first, and zeros up to the end of the last word. -/
namespace Joybus.WordStream

variable {bytes : List Byte} {words : List Word} {limit : Nat}

/-- The bits of a vector in the order in which they are shifted out. -/
def msbFirst {n : Nat} (x : BitVec n) : List Bool := (List.range n).map x.getMsbD

theorem length_msbFirst {n : Nat} (x : BitVec n) : (msbFirst x).length = n := by
  simp [msbFirst]

theorem msbFirst_append {m n : Nat} (x : BitVec m) (y : BitVec n) :
    msbFirst (x ++ y) = msbFirst x ++ msbFirst y := by
  rw [msbFirst, List.range_add, List.map_append, List.map_map]
  congr 1
  · apply List.map_congr_left
    intro i hi
    have low : ¬ m ≤ i := by simpa using hi
    rw [BitVec.getMsbD_append, if_neg low]
  · apply List.map_congr_left
    intro i _
    rw [Function.comp_apply, BitVec.getMsbD_append, if_pos (Nat.le_add_right m i),
      Nat.add_sub_cancel_left]

theorem msbFirst_zero (n : Nat) : msbFirst (0#n) = List.replicate n false := by
  rw [msbFirst, List.eq_replicate_iff]
  refine ⟨by simp, ?_⟩
  intro b hb
  obtain ⟨i, -, rfl⟩ := List.mem_map.1 hb
  exact BitVec.getMsbD_zero

theorem msbFirst_word (a b c d : Byte) :
    msbFirst (word a b c d) = msbFirst a ++ msbFirst b ++ msbFirst c ++ msbFirst d := by
  rw [word, msbFirst_append, msbFirst_append, msbFirst_append]

theorem length_bits {n : Nat} (xs : List (BitVec n)) :
    (xs.flatMap msbFirst).length = n * xs.length := by
  induction xs with
  | nil => rfl
  | cons x xs ih =>
    rw [List.flatMap_cons, List.length_append, ih, length_msbFirst, List.length_cons, Nat.mul_succ,
      Nat.add_comm]

/-- The payload has the bits of the bytes, and then zeros for less than a word. -/
theorem payload_bits (bytes : List Byte) : ∃ n < 32,
    (payload bytes).flatMap msbFirst = bytes.flatMap msbFirst ++ List.replicate n false := by
  fun_induction payload bytes with
  | case1 => exact ⟨0, by omega, rfl⟩
  | case2 a =>
    refine ⟨24, by omega, ?_⟩
    simp [msbFirst_word, msbFirst_zero]
  | case3 a b =>
    refine ⟨16, by omega, ?_⟩
    simp [msbFirst_word, msbFirst_zero]
  | case4 a b c =>
    refine ⟨8, by omega, ?_⟩
    simp [msbFirst_word, msbFirst_zero]
  | case5 a b c d rest ih =>
    obtain ⟨n, hn, ih⟩ := ih
    refine ⟨n, hn, ?_⟩
    simp [msbFirst_word, ih]

/-- Appends a word to a stream. A full one refuses it. -/
def push (words : List Word) (w : Word) : Except FrameError (List Word) :=
  if words.length < capacity then .ok (words ++ [w]) else .error .tooLong

/-- Builds the stream of `bytes` word by word. Every word is checked to have room. -/
def build (bytes : List Byte) (limit : Nat) : Except FrameError (List Word) := do
  if min limit Frame.capacity < bytes.length then throw .tooLong
  if bytes.isEmpty then return []
  (payload bytes).foldlM push (← push [] (header bytes.length))

theorem foldlM_push (words : List Word) {more : List Word}
    (hl : (words ++ more).length ≤ capacity) :
    more.foldlM push words = .ok (words ++ more) := by
  induction more generalizing words with
  | nil => simp [pure, Except.pure]
  | cons w more ih =>
    have room : words.length < capacity := by
      rw [List.length_append, List.length_cons] at hl
      omega
    have rest : (words ++ [w] ++ more).length ≤ capacity := by simpa using hl
    rw [List.foldlM_cons, push, if_pos room]
    change more.foldlM push (words ++ [w]) = _
    rw [ih _ rest, List.append_assoc, List.singleton_append]

theorem encode_ok_iff (bytes : List Byte) (limit : Nat) :
    (∃ words, encode bytes limit = .ok words) ↔ bytes.length ≤ min limit Frame.capacity := by
  unfold encode
  split
  · rename_i long
    refine ⟨?_, fun hl => absurd long (by omega)⟩
    rintro ⟨_, he⟩
    cases he
  · rename_i fits
    refine ⟨fun _ => by omega, fun _ => ?_⟩
    split
    · exact ⟨_, rfl⟩
    · exact ⟨_, rfl⟩

/-- No word of a stream that is not too long for its limit is refused. -/
theorem build_eq_encode (bytes : List Byte) (limit : Nat) : build bytes limit = encode bytes limit := by
  unfold build
  cases he : encode bytes limit with
  | error e =>
    unfold encode at he
    split at he
    · rename_i long
      cases he
      rw [if_pos long]
      rfl
    · split at he <;> cases he
  | ok words =>
    have hl := WordStream.length_encode he
    unfold encode at he
    split at he
    · cases he
    rename_i fits
    rw [if_neg fits]
    split at he
    · rename_i none
      cases he
      rw [if_pos none]
      rfl
    · rename_i some
      cases he
      rw [if_neg some]
      exact foldlM_push [_] hl

/-- A stream carries the bytes that it is the stream of. -/
theorem carried_encode (he : encode bytes limit = .ok words) : carried words = bytes := by
  unfold encode at he
  split at he
  · cases he
  rename_i fits
  split at he
  · rename_i none
    cases he
    exact (List.isEmpty_iff.1 none).symm
  · rename_i some
    cases he
    have pos : bytes.length ≠ 0 := fun h0 => some (List.isEmpty_iff.2 (List.length_eq_zero_iff.1 h0))
    simp only [Frame.capacity] at fits
    exact carried_stream (by omega) (by omega)

/-- A byte string has a stream if and only if it is not too long for the limit and for a frame; the
stream never runs out of room. That of a frame that is not empty is a header and a word for every
four bytes. As many of the payload's bits as the header says, the most significant one of each word
first, are those of the bytes, and the few after them are zero. No other frame has this stream,
under any limit. -/
theorem encode_exact (bytes : List Byte) (limit : Nat) :
    ((∃ words, encode bytes limit = .ok words) ↔ bytes.length ≤ min limit Frame.capacity) ∧
    build bytes limit = encode bytes limit ∧
    ∀ words, encode bytes limit = .ok words →
      (bytes ≠ [] → ∃ h ps, words = h :: ps ∧
        words.length = 1 + (bytes.length + 3) / 4 ∧ words.length ≤ capacity ∧
        h.toNat + 1 = 8 * bytes.length ∧
        (ps.flatMap msbFirst).take (h.toNat + 1) = bytes.flatMap msbFirst ∧
        ((ps.flatMap msbFirst).drop (h.toNat + 1)).length < 32 ∧
        ∀ b ∈ (ps.flatMap msbFirst).drop (h.toNat + 1), b = false) ∧
      ∀ others limit', encode others limit' = .ok words → others = bytes := by
  refine ⟨encode_ok_iff bytes limit, build_eq_encode bytes limit, fun words he => ⟨fun hb => ?_, ?_⟩⟩
  · have room := WordStream.length_encode he
    have fits := (encode_ok_iff bytes limit).1 ⟨words, he⟩
    have pos : 0 < bytes.length := List.length_pos_iff.2 hb
    rw [Frame.capacity] at fits
    rw [encode, if_neg (by rw [Frame.capacity]; omega), if_neg (by simpa using hb)] at he
    cases he
    have bits : (header bytes.length).toNat + 1 = (bytes.flatMap msbFirst).length := by
      rw [header, BitVec.toNat_ofNat, length_bits]
      omega
    obtain ⟨n, hn, hp⟩ := payload_bits bytes
    refine ⟨_, _, rfl, ?_, room, bits.trans (length_bits bytes), ?_, ?_, ?_⟩
    · rw [List.length_cons, WordStream.length_payload]
      omega
    · rw [hp, bits, List.take_left]
    · rw [hp, bits, List.drop_left, List.length_replicate]
      exact hn
    · rw [hp, bits, List.drop_left]
      exact fun b hb => List.eq_of_mem_replicate hb
  · intro others limit' ho
    rw [← carried_encode ho, carried_encode he]

/-- Five bytes, so that the last word has one and 24 zeros. -/
theorem encode_exact_five :
    ∃ h ps, encode [0x41, 0xa5, 0x00, 0xff, 0x13] 20 = .ok (h :: ps) ∧ ps.length = 2 ∧
      h.toNat + 1 = 40 ∧ ((ps.flatMap msbFirst).drop 40).length = 24 ∧
      ∀ b ∈ (ps.flatMap msbFirst).drop 40, b = false := by
  obtain ⟨⟨-, fits⟩, -, exact⟩ := encode_exact [0x41, 0xa5, 0x00, 0xff, 0x13] 20
  obtain ⟨words, he⟩ := fits (by decide)
  obtain ⟨⟨h, ps, rfl, count, -, bits, -, -, zeros⟩, -⟩ := (exact words he).imp_left (· (by decide))
  have two : ps.length = 2 := by
    simp only [List.length_cons, List.length_nil] at count
    omega
  have forty : h.toNat + 1 = 40 := bits
  rw [forty] at zeros
  refine ⟨h, ps, he, two, forty, ?_, zeros⟩
  rw [List.length_drop, length_bits, two]

end Joybus.WordStream
