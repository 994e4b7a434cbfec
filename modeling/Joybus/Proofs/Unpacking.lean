import Joybus.Packing

/-! What a frame is decoded from: each byte from the samples in its own word, as long as there are
words, and nothing else. -/
namespace Joybus

namespace Frame
variable {f : Frame} {bytes : List Byte}

/-- Bytes that a frame has room for are all appended to it. -/
theorem pushEach_of_room (h : f.bytes.length + bytes.length ≤ 32) :
    f.pushEach bytes = (.ok (), ⟨f.bytes ++ bytes, by rwa [List.length_append]⟩) := by
  induction bytes generalizing f with
  | nil =>
    exact congrArg (Prod.mk _) (Frame.ext (List.append_nil _).symm)
  | cons b bytes ih =>
    have room : (f.bytes ++ [b]).length ≤ 32 := by
      simp only [List.length_append, List.length_cons, List.length_nil] at h ⊢
      omega
    have pushed : f.push b = .ok ⟨f.bytes ++ [b], room⟩ := dif_pos room
    have rest := ih (f := ⟨f.bytes ++ [b], room⟩) (by
      simp only [List.length_append, List.length_cons, List.length_nil] at h ⊢
      omega)
    simp only [pushEach, pushed, rest, List.append_assoc, List.singleton_append]

end Frame

namespace Packing
variable {p : Packing} {words others : List Word} {i m n count : Nat}

theorem bytesPerWord_pos (p : Packing) : 0 < p.bytesPerWord := by
  cases p <;> decide

section Bytes

theorem byte?_eq_none_iff : p.byte? words i = none ↔ p.bytesPerWord * words.length ≤ i := by
  have div := Nat.le_div_iff_mul_le (x := words.length) (y := i) p.bytesPerWord_pos
  rw [byte?, Option.map_eq_none_iff, List.getElem?_eq_none_iff, div, Nat.mul_comm]

/-- A byte is decoded from its own word. -/
theorem byte?_congr (h : others[i / p.bytesPerWord]? = words[i / p.bytesPerWord]?) :
    p.byte? others i = p.byte? words i := by
  rw [byte?, byte?, h]

/-- The words it takes to receive some bytes have these bytes in them. -/
theorem div_lt_wordCount (p : Packing) (h : i < n) : i / p.bytesPerWord < p.wordCount n := by
  cases p with
  | one =>
    simp only [wordCount, bytesPerWord]
    omega
  | two =>
    simp only [wordCount, bytesPerWord]
    omega

theorem bytesFrom_congr (h : ∀ j < i + count, p.byte? others j = p.byte? words j) :
    p.bytesFrom others i count = p.bytesFrom words i count := by
  induction count generalizing i with
  | zero => rfl
  | succ count ih =>
    have rest := ih (i := i + 1) fun j hj => h j (by omega)
    rw [bytesFrom, bytesFrom, h i (by omega), rest]

theorem take_bytesFrom (p : Packing) (words : List Word) (i m n : Nat) :
    (p.bytesFrom words i n).take m = p.bytesFrom words i (min m n) := by
  induction n generalizing i m with
  | zero => simp [bytesFrom]
  | succ n ih =>
    cases m with
    | zero => simp [bytesFrom]
    | succ m =>
      rw [Nat.succ_min_succ, bytesFrom, bytesFrom]
      cases p.byte? words i with
      | none => rfl
      | some b => rw [List.take_succ_cons, ih]

theorem length_bytesFrom (p : Packing) (words : List Word) (i count : Nat) :
    (p.bytesFrom words i count).length = min count (p.bytesPerWord * words.length - i) := by
  induction count generalizing i with
  | zero => simp [bytesFrom]
  | succ count ih =>
    rw [bytesFrom]
    cases hb : p.byte? words i with
    | none =>
      have out := byte?_eq_none_iff.1 hb
      simp only [List.length_nil]
      omega
    | some b =>
      have there : ¬ p.bytesPerWord * words.length ≤ i := by
        rw [← byte?_eq_none_iff, hb]
        simp
      simp only [List.length_cons, ih]
      omega

/-- Every byte that is read is appended to the frame. -/
theorem pushEach_bytesFrom (p : Packing) (words : List Word) (n : Nat) :
    ∃ h, Frame.empty.pushEach (p.bytesFrom words 0 (min n 32)) =
      (.ok (), ⟨p.bytesFrom words 0 (min n 32), h⟩) := by
  have room : (p.bytesFrom words 0 (min n 32)).length ≤ 32 := by
    rw [length_bytesFrom]
    omega
  exact ⟨room, Frame.pushEach_of_room (f := Frame.empty) (by simpa [Frame.empty] using room)⟩

theorem bytes_decodeFrame (p : Packing) (words : List Word) (n : Nat) :
    (p.decodeFrame words n).bytes = p.bytesFrom words 0 (min n 32) := by
  obtain ⟨h, pushed⟩ := pushEach_bytesFrom p words n
  rw [decodeFrame, Frame.capacity, pushed]

end Bytes

section Words

/-- The bytes one received word carries. -/
def unpack : Packing → Word → List Byte
  | one, w => [Sample.decode w]
  | two, w => [Sample.decode (w >>> 8), Sample.decode w]

/-- The top eight bits of a word of samples play no part. -/
theorem decode_low (w : Word) : Sample.decode (w &&& 0xffffff) = Sample.decode w := by
  have low : ∀ k < 24, (w &&& 0xffffff).getLsbD k = w.getLsbD k := by
    intro k hk
    have mask : (0xffffff : Word) = (BitVec.allOnes 24).setWidth 32 := by decide
    rw [mask, BitVec.getLsbD_and, BitVec.getLsbD_setWidth, BitVec.getLsbD_allOnes]
    simp [hk, show k < 32 by omega]
  apply BitVec.eq_of_getLsbD_eq
  intro i hi
  rw [Sample.getLsbD_decode _ hi, Sample.getLsbD_decode _ hi, Sample.bit, low _ (by omega),
    low _ (by omega), low _ (by omega), Sample.bit]

theorem length_unpack_word (p : Packing) (w : Word) : (p.unpack w).length = p.bytesPerWord := by
  cases p <;> rfl

/-- Byte `i` of a word is decoded from its window. -/
theorem getElem?_unpack (w : Word) (h : i < p.bytesPerWord) :
    (p.unpack w)[i]? = some (Sample.decode (p.window w i)) := by
  cases p with
  | one =>
    obtain rfl : i = 0 := by simpa [bytesPerWord] using h
    exact congrArg some (decode_low w).symm
  | two =>
    have two : i = 0 ∨ i = 1 := by
      simp only [bytesPerWord] at h
      omega
    rcases two with rfl | rfl
    · rfl
    · exact congrArg some (decode_low w).symm

/-- The bytes of all words in a row, by their numbers. -/
theorem getElem?_flatMap_unpack (p : Packing) (words : List Word) (i : Nat) :
    (words.flatMap p.unpack)[i]? = p.byte? words i := by
  induction words generalizing i with
  | nil => simp [byte?]
  | cons w words ih =>
    rw [List.flatMap_cons, List.getElem?_append, length_unpack_word]
    by_cases here : i < p.bytesPerWord
    · rw [if_pos here, getElem?_unpack w here, byte?, Nat.div_eq_of_lt here, Nat.mod_eq_of_lt here]
      rfl
    · obtain ⟨j, rfl⟩ := Nat.exists_eq_add_of_le' (Nat.le_of_not_lt here)
      rw [if_neg here, Nat.add_sub_cancel, ih, byte?, byte?, Nat.add_div_right j p.bytesPerWord_pos,
        Nat.add_mod_right, List.getElem?_cons_succ]

theorem bytesFrom_eq (p : Packing) (words : List Word) (i count : Nat) :
    p.bytesFrom words i count = ((words.flatMap p.unpack).drop i).take count := by
  induction count generalizing i with
  | zero => simp [bytesFrom]
  | succ count ih =>
    have head := List.drop_eq_getElem?_toList_append (l := words.flatMap p.unpack) (i := i)
    rw [bytesFrom, ih, ← getElem?_flatMap_unpack, head]
    cases hb : (words.flatMap p.unpack)[i]? with
    | none =>
      have out := List.getElem?_eq_none_iff.1 hb
      rw [List.drop_eq_nil_of_le (by omega)]
      rfl
    | some b => rfl

/-- A frame has the first of the bytes that the words carry. -/
theorem decodeFrame_unpack (p : Packing) (words : List Word) (n : Nat) :
    (p.decodeFrame words n).bytes = (words.flatMap p.unpack).take (min n 32) := by
  rw [bytes_decodeFrame, bytesFrom_eq, List.drop_zero]

end Words

section Frames

/-- A frame is as long as is asked for, unless that is more than it holds or the words run out. -/
theorem length_decodeFrame_eq (p : Packing) (words : List Word) (n : Nat) :
    (p.decodeFrame words n).length = min (min n 32) (p.bytesPerWord * words.length) := by
  rw [Frame.length, bytes_decodeFrame, length_bytesFrom, Nat.sub_zero]

theorem decodeFrame_congr_byte (h : ∀ j < n, p.byte? others j = p.byte? words j) :
    p.decodeFrame others n = p.decodeFrame words n := by
  apply Frame.ext
  rw [bytes_decodeFrame, bytes_decodeFrame]
  apply bytesFrom_congr
  intro j hj
  exact h j (by omega)

/-- Only the words that it takes to receive so many bytes matter. -/
theorem decodeFrame_congr (h : others.take (p.wordCount n) = words.take (p.wordCount n)) :
    p.decodeFrame others n = p.decodeFrame words n := by
  apply decodeFrame_congr_byte
  intro j hj
  have within := div_lt_wordCount p hj
  apply byte?_congr
  rw [← List.getElem?_take_of_lt within, h, List.getElem?_take_of_lt within]

/-- A shorter frame is the beginning of a longer one. -/
theorem decodeFrame_of_le (p : Packing) (words : List Word) (h : m ≤ n) :
    (p.decodeFrame words m).bytes = (p.decodeFrame words n).bytes.take m := by
  have fewer : min m (min n 32) = min m 32 := by omega
  rw [bytes_decodeFrame, bytes_decodeFrame, take_bytesFrom, fewer]

/-- With two bytes to a word, the last of an odd number of bytes has the upper window of the last
word, and the low eight bits of that word do not matter. -/
theorem decodeFrame_set_last {last w : Word} (odd : n % 2 = 1)
    (there : words[Packing.two.wordCount n - 1]? = some last) (upper : w >>> 8 = last >>> 8) :
    Packing.two.decodeFrame (words.set (Packing.two.wordCount n - 1) w) n =
      Packing.two.decodeFrame words n := by
  have place : Packing.two.wordCount n - 1 = n / 2 := by
    simp only [wordCount, bytesPerWord]
    omega
  rw [place] at there ⊢
  apply decodeFrame_congr_byte
  intro j hj
  by_cases same : j / 2 = n / 2
  · have even : j % 2 = 0 := by omega
    have within : n / 2 < words.length := (List.getElem?_eq_some_iff.1 there).1
    simp only [byte?, bytesPerWord, same, even, there, List.getElem?_set_self within, window,
      Option.map_some, upper]
  · exact byte?_congr (List.getElem?_set_ne (Ne.symm same))

/-- A frame has as many bytes as there are words for, all of which it has room for. It depends on
nothing but the words that these bytes take, not even on all of the last one if it has a single byte
of two, and asking for fewer bytes gives the first of them. -/
theorem decoded_locally (p : Packing) (words : List Word) (n : Nat) :
    (p.decodeFrame words n).length = min (min n 32) (p.bytesPerWord * words.length) ∧
      (Frame.empty.pushEach (p.bytesFrom words 0 (min n Frame.capacity))).1 = .ok () ∧
      (∀ others : List Word, others.take (p.wordCount n) = words.take (p.wordCount n) →
        p.decodeFrame others n = p.decodeFrame words n) ∧
      (∀ m ≤ n, (p.decodeFrame words m).bytes = (p.decodeFrame words n).bytes.take m) ∧
      (p = .two → n % 2 = 1 → ∀ last w : Word, words[p.wordCount n - 1]? = some last →
        w >>> 8 = last >>> 8 →
        p.decodeFrame (words.set (p.wordCount n - 1) w) n = p.decodeFrame words n) := by
  refine ⟨length_decodeFrame_eq p words n, ?_, ?_, ?_, ?_⟩
  · obtain ⟨_, pushed⟩ := pushEach_bytesFrom p words n
    rw [Frame.capacity, pushed]
  · intro others h
    exact decodeFrame_congr h
  · intro m h
    exact decodeFrame_of_le p words h
  · rintro rfl odd last w there upper
    exact decodeFrame_set_last odd there upper

/-- Three bytes from two words of two bytes each: a third word, other low bits of the second, and
the first two bytes alone. -/
theorem decoded_locally_triple :
    let words : List Word := [0x00fff000, 0xfc0fffaa]
    let frame := Packing.two.decodeFrame words 3
    frame.length = 3 ∧
      Packing.two.decodeFrame [0x00fff000, 0xfc0fffaa, 0x12345678] 3 = frame ∧
      (Packing.two.decodeFrame words 2).bytes = frame.bytes.take 2 ∧
      Packing.two.decodeFrame [0x00fff000, 0xfc0fff55] 3 = frame := by
  intro words frame
  obtain ⟨length, -, beyond, shorter, last⟩ := decoded_locally .two words 3
  refine ⟨length, beyond _ rfl, shorter 2 (by decide), ?_⟩
  exact last rfl rfl 0xfc0fffaa 0xfc0fff55 rfl (by decide)

end Frames

end Packing

end Joybus
