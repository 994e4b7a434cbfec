import Joybus.Config.Text
import Mathlib.Algebra.Group.Nat.Defs

/-! Numbers in a configuration text: which texts are read as a number, and that it is the one they
denote. -/
namespace Joybus

namespace Text
variable {c : Char} {cs : List Char} {b : UInt8}

/-- All bytes of a character beyond ASCII are beyond ASCII. -/
theorem le_of_mem_utf8EncodeChar (hc : 128 ≤ c.toNat) (hb : b ∈ String.utf8EncodeChar c) :
    128 ≤ b.toNat := by
  have ascii : ¬ c.val.toNat ≤ 127 := by
    have same : c.toNat = c.val.toNat := rfl
    omega
  rw [String.utf8EncodeChar.eq_1, if_neg ascii] at hb
  split at hb
  · simp only [List.mem_cons, List.not_mem_nil, or_false] at hb
    rcases hb with rfl | rfl <;> (rw [UInt8.toNat_ofNat']; omega)
  · split at hb
    · simp only [List.mem_cons, List.not_mem_nil, or_false] at hb
      rcases hb with rfl | rfl | rfl <;> (rw [UInt8.toNat_ofNat']; omega)
    · simp only [List.mem_cons, List.not_mem_nil, or_false] at hb
      rcases hb with rfl | rfl | rfl | rfl <;> (rw [UInt8.toNat_ofNat']; omega)

theorem utf8EncodeChar_of_lt (hc : c.toNat < 128) :
    String.utf8EncodeChar c = [UInt8.ofNat c.toNat] := by
  have ascii : c.val.toNat ≤ 127 := by
    have same : c.toNat = c.val.toNat := rfl
    omega
  rw [String.utf8EncodeChar.eq_1, if_pos ascii]
  rfl

theorem length_bytes_digits (h : ∀ c ∈ cs, c.isDigit = true) : (bytes cs).length = cs.length := by
  induction cs with
  | nil => rfl
  | cons c cs ih =>
    obtain ⟨digit, rest⟩ := List.forall_mem_cons.1 h
    simp only [Char.isDigit, Bool.and_eq_true, decide_eq_true_eq] at digit
    have upper : c.toNat ≤ '9'.toNat := digit.2
    have split : bytes (c :: cs) = String.utf8EncodeChar c ++ bytes cs := rfl
    rw [split, utf8EncodeChar_of_lt (Nat.lt_of_le_of_lt upper (by decide)), List.length_append,
      ih rest, List.length_singleton, List.length_cons, Nat.add_comm]

/-- A byte that is an underscore comes from an underscore. -/
theorem filter_utf8EncodeChar (c : Char) :
    (String.utf8EncodeChar c).filter (· ≠ '_'.toUInt8) =
      if c = '_' then [] else String.utf8EncodeChar c := by
  by_cases same : c = '_'
  · subst same
    decide
  · rw [if_neg same, List.filter_eq_self]
    intro b hb
    rw [decide_eq_true_eq]
    rintro rfl
    by_cases hc : c.toNat < 128
    · rw [utf8EncodeChar_of_lt hc, List.mem_singleton] at hb
      have number := congrArg UInt8.toNat hb
      rw [UInt8.toNat_ofNat', Nat.mod_eq_of_lt (by omega)] at number
      exact same (Char.toNat_inj.1 number.symm)
    · have beyond := le_of_mem_utf8EncodeChar (by omega) hb
      exact absurd beyond (by decide)

/-- The bytes of a text but for underscores are those of the text without underscores. -/
theorem filter_bytes (cs : List Char) :
    (bytes cs).filter (· ≠ '_'.toUInt8) = bytes (cs.filter (· ≠ '_')) := by
  induction cs with
  | nil => rfl
  | cons c cs ih =>
    have split : ∀ cs, bytes (c :: cs) = String.utf8EncodeChar c ++ bytes cs := fun _ => rfl
    rw [split, List.filter_append, ih, filter_utf8EncodeChar, List.filter_cons]
    by_cases same : c = '_'
    · simp [same]
    · simp [same, split]

/-- Bytes of a text are always UTF-8, and the text is read back. -/
theorem ofBytes?_bytes (cs : List Char) : ofBytes? (bytes cs) = some cs := by
  have decoded : (bytes cs).toByteArray.utf8Decode? = some cs.toArray := by
    rw [bytes, ← List.utf8Encode.eq_1]
    exact List.utf8Decode?_utf8Encode
  rw [ofBytes?, decoded]
  rfl

end Text

namespace Config

namespace Scratch
variable {s t : Scratch} {b : UInt8} {bs : List UInt8}

theorem length_filled (s : Scratch) : s.filled.length = s.used := by
  have := s.used_le
  rw [filled, List.length_take, Vector.length_toList]
  omega

theorem push?_eq_none_iff : s.push? b = none ↔ s.used = 24 := by
  have := s.used_le
  unfold push?
  split
  · simp
    omega
  · simp
    omega

theorem filled_push? (h : s.push? b = some t) : t.filled = s.filled ++ [b] := by
  unfold push? at h
  split at h
  · next room =>
    obtain rfl := Option.some.inj h
    have cell : s.used < s.cells.toList.length := by rwa [Vector.length_toList]
    rw [filled, filled, Vector.toList_set, List.take_add_one, List.take_set_of_le (by omega),
      List.getElem?_set_self cell]
    rfl
  · exact absurd h (by simp)

/-- The buffer takes all bytes but underscores, or it is too small for them. -/
theorem gather?_cases (s : Scratch) (bs : List UInt8) :
    (s.gather? bs = none ∧ 24 < (s.filled ++ bs.filter (· ≠ '_'.toUInt8)).length) ∨
      ∃ t, s.gather? bs = some t ∧ t.filled = s.filled ++ bs.filter (· ≠ '_'.toUInt8) := by
  induction bs generalizing s with
  | nil => exact .inr ⟨s, rfl, by simp⟩
  | cons b bs ih =>
    rw [gather?]
    by_cases underscore : b = '_'.toUInt8
    · rw [if_pos underscore, List.filter_cons_of_neg (by simp [underscore])]
      exact ih s
    · rw [if_neg underscore, List.filter_cons_of_pos (by simp [underscore])]
      cases pushed : s.push? b with
      | none =>
        have full := push?_eq_none_iff.1 pushed
        refine .inl ⟨rfl, ?_⟩
        rw [List.length_append, length_filled, List.length_cons]
        omega
      | some t =>
        have rest := ih t
        rwa [filled_push? pushed, List.append_assoc, List.singleton_append] at rest

end Scratch

section Digits
variable {w d : Nat} {a n : BitVec w} {c : Char} {digits text : List Char}

theorem digit_lt (h : c.isDigit = true) : c.toNat - '0'.toNat < 10 := by
  simp only [Char.isDigit, Bool.and_eq_true, decide_eq_true_eq] at h
  have upper : c.toNat ≤ '9'.toNat := h.2
  have nine : '9'.toNat - '0'.toNat = 9 := by decide
  omega

theorem toNat_ofNat_small (hw : 4 ≤ w) (hd : d ≤ 10) : (BitVec.ofNat w d).toNat = d := by
  have sixteen : 2 ^ 4 ≤ 2 ^ w := Nat.pow_le_pow_right (by decide) hw
  rw [BitVec.toNat_ofNat, Nat.mod_eq_of_lt (by omega)]

/-- Appending a digit overflows if and only if what it makes does not fit the width. -/
theorem overflows_iff (hw : 4 ≤ w) (hd : d < 10) :
    (a.umulOverflow 10 || (a * 10).uaddOverflow (BitVec.ofNat w d)) = true ↔
      2 ^ w ≤ 10 * a.toNat + d := by
  have ten : (10 : BitVec w).toNat = 10 := toNat_ofNat_small hw (Nat.le_refl 10)
  rw [Bool.or_eq_true, BitVec.umulOverflow, BitVec.uaddOverflow, BitVec.toNat_mul, ten,
    toNat_ofNat_small hw (by omega), decide_eq_true_eq, decide_eq_true_eq]
  by_cases wraps : 2 ^ w ≤ a.toNat * 10
  · simp only [wraps, true_or, true_iff]
    omega
  · rw [Nat.mod_eq_of_lt (by omega)]
    omega

theorem toNat_append (hw : 4 ≤ w) (hd : d < 10) (fits : 10 * a.toNat + d < 2 ^ w) :
    (a * 10 + BitVec.ofNat w d).toNat = 10 * a.toNat + d := by
  have ten : (10 : BitVec w).toNat = 10 := toNat_ofNat_small hw (Nat.le_refl 10)
  rw [BitVec.toNat_add, BitVec.toNat_mul, ten, toNat_ofNat_small hw (by omega),
    Nat.mod_eq_of_lt (show a.toNat * 10 < 2 ^ w by omega), Nat.mod_eq_of_lt (by omega),
    Nat.mul_comm]

/-- A digit is appended to a number if and only if what they make together fits the width. -/
theorem appendDigit?_eq_some_iff (hw : 4 ≤ w) : appendDigit? a c = some n ↔
    c.isDigit = true ∧ 10 * a.toNat + (c.toNat - '0'.toNat) = n.toNat := by
  unfold appendDigit?
  by_cases digit : c.isDigit = true
  · have small := digit_lt digit
    have beyond := overflows_iff (a := a) hw small
    have within := toNat_append (a := a) hw small
    have bound := n.isLt
    generalize c.toNat - '0'.toNat = d at small beyond within
    simp only [digit, Bool.not_true, Bool.false_or, true_and]
    split
    · next full =>
      have large := beyond.1 full
      constructor
      · intro impossible
        exact absurd impossible (by simp)
      · intro denoted
        omega
    · next room =>
      rw [beyond, Nat.not_le] at room
      rw [Option.some_inj, ← BitVec.toNat_inj, within room]
  · simp [digit]

/-- Digits can only make a number greater. -/
theorem le_ofDigitChars (digits : List Char) (start : Nat) :
    start ≤ Nat.ofDigitChars 10 digits start := by
  induction digits generalizing start with
  | nil => exact Nat.le_refl start
  | cons c digits ih =>
    rw [Nat.ofDigitChars_cons]
    have step := ih (10 * start + (c.toNat - '0'.toNat))
    omega

theorem foldlM_appendDigit?_eq_some_iff (hw : 4 ≤ w) :
    digits.foldlM appendDigit? a = some n ↔
      (∀ c ∈ digits, c.isDigit = true) ∧ Nat.ofDigitChars 10 digits a.toNat = n.toNat := by
  induction digits generalizing a with
  | nil =>
    rw [List.foldlM_nil, Nat.ofDigitChars_nil, BitVec.toNat_inj]
    simp
  | cons c digits ih =>
    rw [List.foldlM_cons, Nat.ofDigitChars_cons, List.forall_mem_cons]
    constructor
    · intro folded
      obtain ⟨next, appended, rest⟩ := Option.bind_eq_some_iff.1 folded
      obtain ⟨digit, denoted⟩ := (appendDigit?_eq_some_iff hw).1 appended
      obtain ⟨others, whole⟩ := ih.1 rest
      rw [← denoted] at whole
      exact ⟨⟨digit, others⟩, whole⟩
    · rintro ⟨⟨digit, others⟩, whole⟩
      -- the number so far is no greater than the last one, so it fits too
      have least := le_ofDigitChars digits (10 * a.toNat + (c.toNat - '0'.toNat))
      have fits := n.isLt
      have value := Nat.mod_eq_of_lt (show 10 * a.toNat + (c.toNat - '0'.toNat) < 2 ^ w by omega)
      refine Option.bind_eq_some_iff.2
        ⟨BitVec.ofNat w (10 * a.toNat + (c.toNat - '0'.toNat)), ?_, ih.2 ⟨others, ?_⟩⟩
      · exact (appendDigit?_eq_some_iff hw).2 ⟨digit, by rw [BitVec.toNat_ofNat, value]⟩
      · rw [BitVec.toNat_ofNat, value, whole]

/-- A plus sign or none, and behind it one digit or more that denote a number. -/
def Signed (text : List Char) (n : Nat) : Prop :=
  ∃ sign digits, text = sign ++ digits ∧ (sign = [] ∨ sign = ['+']) ∧ digits ≠ [] ∧
    (∀ c ∈ digits, c.isDigit = true) ∧ Nat.ofDigitChars 10 digits 0 = n

theorem unsigned?_eq_some_iff (hw : 4 ≤ w) : unsigned? w text = some n ↔ Signed text n.toNat := by
  have zero : (0 : BitVec w).toNat = 0 := BitVec.toNat_zero
  have bare : ∀ digits : List Char,
      (if digits.isEmpty then none else digits.foldlM appendDigit? (0 : BitVec w)) = some n ↔
        digits ≠ [] ∧ (∀ c ∈ digits, c.isDigit = true) ∧
          Nat.ofDigitChars 10 digits 0 = n.toNat := by
    intro digits
    cases digits with
    | nil => simp
    | cons c digits =>
      rw [List.isEmpty_cons, if_neg (by decide), foldlM_appendDigit?_eq_some_iff hw, zero]
      simp
  unfold unsigned?
  split
  · next rest =>
    rw [bare rest]
    constructor
    · rintro ⟨filled, digits, denoted⟩
      exact ⟨['+'], rest, rfl, .inr rfl, filled, digits, denoted⟩
    · rintro ⟨sign, digits, split, rfl | rfl, filled, all, denoted⟩
      · -- a plus sign is no digit
        rw [List.nil_append] at split
        exact absurd (all '+' (split ▸ List.mem_cons_self ..)) (by decide)
      · obtain rfl := (List.cons.inj split).2
        exact ⟨filled, all, denoted⟩
  · next unsigned =>
    rw [bare text]
    constructor
    · rintro ⟨filled, digits, denoted⟩
      exact ⟨[], text, rfl, .inl rfl, filled, digits, denoted⟩
    · rintro ⟨sign, digits, rfl, rfl | rfl, filled, all, denoted⟩
      · exact ⟨filled, all, denoted⟩
      · exact absurd rfl (unsigned digits)

end Digits

section Numbers
variable {w n : Nat} {c : Char} {value digits : List Char}

/-- Without its underscores, the text is at most 24 bytes long, and a plus sign or none with digits
behind it that denote the number. -/
structure Denotes (value : List Char) (n : Nat) : Prop where
  short : (Text.bytes (value.filter (· ≠ '_'))).length ≤ 24
  signed : Signed (value.filter (· ≠ '_')) n

/-- The buffer holds a text without its underscores, if it holds it at all. -/
theorem gather?_bytes (value : List Char) :
    (Scratch.gather? {} (Text.bytes value) = none ∧
        24 < (Text.bytes (value.filter (· ≠ '_'))).length) ∨
      ∃ s, Scratch.gather? {} (Text.bytes value) = some s ∧
        s.filled = Text.bytes (value.filter (· ≠ '_')) := by
  have cases := Scratch.gather?_cases {} (Text.bytes value)
  rwa [Text.filter_bytes, show Scratch.filled {} = [] from rfl, List.nil_append] at cases

theorem ofBytes?_gathered {s : Scratch} (h : Scratch.gather? {} (Text.bytes value) = some s) :
    Text.ofBytes? s.filled = some (value.filter (· ≠ '_')) := by
  obtain ⟨full, -⟩ | ⟨t, gathered, filled⟩ := gather?_bytes value
  · exact absurd (h.symm.trans full) (by simp)
  · obtain rfl := Option.some.inj (h.symm.trans gathered)
    rw [filled, Text.ofBytes?_bytes]

theorem readNumber_eq (w : Nat) (value : List Char) : readNumber w value =
    if (Text.bytes (value.filter (· ≠ '_'))).length ≤ 24 then
      orInvalid (unsigned? w (value.filter (· ≠ '_')))
    else .error .invalidValue := by
  unfold readNumber
  obtain ⟨full, long⟩ | ⟨s, gathered, filled⟩ := gather?_bytes value
  · rw [full, if_neg (by omega)]
    rfl
  · have short : (Text.bytes (value.filter (· ≠ '_'))).length ≤ 24 := by
      rw [← filled, s.length_filled]
      exact s.used_le
    have text := ofBytes?_gathered gathered
    rw [if_pos short, gathered]
    simp [orInvalid, text, bind, Except.bind]

theorem readNumber_eq_ok_iff (hw : 4 ≤ w) {n : BitVec w} :
    readNumber w value = .ok n ↔ Denotes value n.toNat := by
  have invalid : ∀ {o : Option (BitVec w)}, orInvalid o = .ok n ↔ o = some n := by
    intro o
    cases o <;> simp [orInvalid]
  rw [readNumber_eq]
  constructor
  · intro read
    split at read
    · next short => exact ⟨short, (unsigned?_eq_some_iff hw).1 (invalid.1 read)⟩
    · exact absurd read (by simp)
  · rintro ⟨short, signed⟩
    rw [if_pos short]
    exact invalid.2 ((unsigned?_eq_some_iff hw).2 signed)

theorem readNumber_of_denotes (hw : 4 ≤ w) (h : Denotes value n) (fits : n < 2 ^ w) :
    readNumber w value = .ok (.ofNat w n) := by
  have small : (BitVec.ofNat w n).toNat = n :=
    (BitVec.toNat_ofNat n w).trans (Nat.mod_eq_of_lt fits)
  exact (readNumber_eq_ok_iff hw).2 (by rwa [small])

/-- A text that is not read as a number is an invalid value. -/
theorem readNumber_cases (w : Nat) (value : List Char) :
    (∃ n, readNumber w value = .ok n) ∨ readNumber w value = .error .invalidValue := by
  rw [readNumber_eq]
  split
  · cases unsigned? w (value.filter (· ≠ '_')) with
    | none => exact .inr rfl
    | some n => exact .inl ⟨n, rfl⟩
  · exact .inr rfl

theorem readNumber_eq_error_iff (hw : 4 ≤ w) :
    readNumber w value = .error .invalidValue ↔ ∀ n, Denotes value n → 2 ^ w ≤ n := by
  constructor
  · intro refused n denoted
    refine Nat.le_of_not_lt fun fits => ?_
    exact absurd ((readNumber_of_denotes hw denoted fits).symm.trans refused) (by simp)
  · intro large
    obtain ⟨n, read⟩ | refused := readNumber_cases w value
    · have out := large _ ((readNumber_eq_ok_iff hw).1 read)
      exact absurd n.isLt (by omega)
    · exact refused

/-- The number a text is read as, if it is read as one. -/
def number? (w : Nat) (text : List Char) : Option Nat :=
  (readNumber w text).toOption.map BitVec.toNat

theorem readNumber_of_number? (h : number? w value = some n) :
    ∃ m : BitVec w, readNumber w value = .ok m ∧ m.toNat = n := by
  obtain ⟨m, read, rfl⟩ := Option.map_eq_some_iff.1 h
  obtain ⟨n, ok⟩ | refused := readNumber_cases w value
  · rw [ok] at read ⊢
    obtain rfl := Option.some.inj read
    exact ⟨_, rfl, rfl⟩
  · rw [refused] at read
    exact absurd read (by simp [Except.toOption])

theorem readNumber_of_number?_none (h : number? w value = none) :
    readNumber w value = .error .invalidValue := by
  obtain ⟨n, ok⟩ | refused := readNumber_cases w value
  · simp [number?, ok, Except.toOption] at h
  · exact refused

theorem number?_eq_some_iff (hw : 4 ≤ w) :
    number? w value = some n ↔ Denotes value n ∧ n < 2 ^ w := by
  constructor
  · intro number
    obtain ⟨m, read, rfl⟩ := readNumber_of_number? number
    exact ⟨(readNumber_eq_ok_iff hw).1 read, m.isLt⟩
  · rintro ⟨denoted, fits⟩
    rw [number?, readNumber_of_denotes hw denoted fits]
    exact congrArg some ((BitVec.toNat_ofNat n w).trans (Nat.mod_eq_of_lt fits))

theorem Denotes.mem (h : Denotes value n) (hc : c ∈ value) :
    c.isDigit = true ∨ c = '+' ∨ c = '_' := by
  by_cases underscore : c = '_'
  · exact .inr (.inr underscore)
  · have kept : c ∈ value.filter (· ≠ '_') := by simp [hc, underscore]
    obtain ⟨sign, digits, split, signed, -, all, -⟩ := h.signed
    rw [split] at kept
    rcases List.mem_append.1 kept with mem | mem
    · rcases signed with rfl | rfl
      · exact absurd mem (by simp)
      · exact .inr (.inl (List.mem_singleton.1 mem))
    · exact .inl (all c mem)

/-- Digits denote one number, if they are not too many. -/
theorem denotes_iff_of_digits (clean : value.filter (· ≠ '_') = digits)
    (hd : ∀ c ∈ digits, c.isDigit = true) (hn : digits ≠ []) :
    Denotes value n ↔ digits.length ≤ 24 ∧ Nat.ofDigitChars 10 digits 0 = n := by
  constructor
  · rintro ⟨short, signed⟩
    rw [clean] at short signed
    rw [Text.length_bytes_digits hd] at short
    obtain ⟨sign, rest, rfl, rfl | rfl, -, -, denoted⟩ := signed
    · exact ⟨short, denoted⟩
    · exact absurd (hd '+' (List.mem_cons_self ..)) (by decide)
  · rintro ⟨short, denoted⟩
    constructor <;> rw [clean]
    · rwa [Text.length_bytes_digits hd]
    · exact ⟨[], digits, rfl, .inl rfl, hn, hd, denoted⟩

/-- A number of some bits is read from the texts that denote it, and from no others; what denotes no
number of so many bits is an invalid value. What is gathered in the buffer is always a text. -/
theorem numbers_read_exactly (hw : 4 ≤ w) (value : List Char) :
    (∀ n : BitVec w, readNumber w value = .ok n ↔ Denotes value n.toNat) ∧
      (readNumber w value = .error .invalidValue ↔ ∀ n, Denotes value n → 2 ^ w ≤ n) ∧
      ∀ s, Scratch.gather? {} (Text.bytes value) = some s → (Text.ofBytes? s.filled).isSome := by
  refine ⟨fun n => readNumber_eq_ok_iff hw, readNumber_eq_error_iff hw, ?_⟩
  intro s gathered
  rw [ofBytes?_gathered gathered]
  rfl

/-- The largest byte, with a plus sign and underscores, and the smallest number that has no room in
32 bits. -/
theorem numbers_read_exactly_largest :
    4 ≤ 8 ∧ readNumber 8 "+_25_5".toList = .ok 255 ∧
      readNumber 32 "4_294_967_296".toList = .error .invalidValue := by
  refine ⟨by decide, ?_, ?_⟩
  · refine ((numbers_read_exactly (w := 8) (by decide) _).1 255).2 ⟨by decide, ?_⟩
    exact ⟨['+'], "255".toList, by decide, .inr rfl, by decide, List.all_eq_true.1 rfl, by decide⟩
  · refine (numbers_read_exactly (w := 32) (by decide) _).2.1.2 ?_
    rintro n ⟨-, sign, digits, split, rfl | rfl, -, -, rfl⟩
    · rw [List.nil_append] at split
      have value : Nat.ofDigitChars 10 digits 0 = 4294967296 := split ▸ (by decide)
      omega
    · exact absurd split (by simp)

end Numbers

end Config

end Joybus
