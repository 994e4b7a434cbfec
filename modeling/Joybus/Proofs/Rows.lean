import Joybus.Config.Text
import Joybus.Toml.Printer
import Mathlib.Data.List.TakeWhile
import Mathlib.Data.List.Induction

/-! Tables written out row by row, and what the reader of configuration text makes of each row. -/
namespace Joybus.Config

open Toml (Table Value)

section Characters
variable {c : Char} {cs : List Char}

/-- A character of ASCII that prints and is no space. -/
def Visible (c : Char) : Prop := 0x21 ≤ c.toNat ∧ c.toNat < 0x7F

instance : DecidablePred Visible := fun c =>
  inferInstanceAs (Decidable (0x21 ≤ c.toNat ∧ c.toNat < 0x7F))

/-- A character that does not end a line. -/
def Inline (c : Char) : Prop := c ≠ '\n' ∧ c ≠ '\r'

instance : DecidablePred Inline := fun c => inferInstanceAs (Decidable (c ≠ '\n' ∧ c ≠ '\r'))

/-- A character that stands for itself between quotes and starts no comment. -/
def Plain (c : Char) : Prop := c ≠ '"' ∧ c ≠ '\\' ∧ c ≠ '#' ∧ 0x20 ≤ c.toNat ∧ c.toNat ≠ 0x7F

instance : DecidablePred Plain := fun c =>
  inferInstanceAs (Decidable (c ≠ '"' ∧ c ≠ '\\' ∧ c ≠ '#' ∧ 0x20 ≤ c.toNat ∧ c.toNat ≠ 0x7F))

/-- A property of the characters of a list is decided one by one. -/
theorem forall_mem_of_all {p : Char → Prop} [DecidablePred p] {cs : List Char}
    (h : cs.all (fun c => decide (p c)) = true) : ∀ c ∈ cs, p c := by
  simpa using h

theorem Visible.not_blank (h : Visible c) : Text.isBlank c = false := by
  obtain ⟨low, high⟩ := h
  simp only [Text.isBlank, Text.blankRanges, List.any_cons, List.any_nil, Bool.or_false,
    Bool.or_eq_false_iff, Bool.and_eq_false_iff, decide_eq_false_iff_not]
  omega

theorem inline_of_toNat (h : 0x20 ≤ c.toNat) : Inline c := by
  constructor <;> rintro rfl <;> exact absurd h (by decide)

theorem Visible.inline (h : Visible c) : Inline c := inline_of_toNat (by have := h.1; omega)

theorem visible_of_isDigit (h : c.isDigit = true) : Visible c := by
  simp only [Char.isDigit, Bool.and_eq_true, decide_eq_true_eq, UInt32.le_iff_toNat_le] at h
  change 48 ≤ c.toNat ∧ c.toNat ≤ 57 at h
  exact ⟨by omega, by omega⟩

theorem visible_of_isBareKeyChar (h : Toml.isBareKeyChar c = true) : Visible c := by
  unfold Toml.isBareKeyChar Char.isAlphanum Char.isAlpha Char.isUpper Char.isLower at h
  simp only [Bool.or_eq_true, Bool.and_eq_true, decide_eq_true_eq, ge_iff_le,
    UInt32.le_iff_toNat_le] at h
  rcases h with (((upper | lower) | digit) | rfl) | rfl
  · change 65 ≤ c.toNat ∧ c.toNat ≤ 90 at upper
    exact ⟨by omega, by omega⟩
  · change 97 ≤ c.toNat ∧ c.toNat ≤ 122 at lower
    exact ⟨by omega, by omega⟩
  · exact visible_of_isDigit digit
  · exact ⟨by decide, by decide⟩
  · exact ⟨by decide, by decide⟩

theorem ne_of_isBareKeyChar {d : Char} (h : Toml.isBareKeyChar c = true)
    (hd : Toml.isBareKeyChar d = false) : c ≠ d := by
  rintro rfl
  rw [h] at hd
  exact absurd hd (by decide)

end Characters

section Trimming
variable {c d : Char} {cs ds mid : List Char}

/-- White space and nothing else. -/
def Blank (cs : List Char) : Prop := ∀ c ∈ cs, Text.isBlank c = true

theorem Blank.append (h : Blank cs) (h' : Blank ds) : Blank (cs ++ ds) :=
  fun c hc => (List.mem_append.1 hc).elim (h c) (h' c)

theorem blank_nil : Blank [] := by simp [Blank]

theorem blank_singleton (hc : Text.isBlank c = true) : Blank [c] := by simpa [Blank] using hc

theorem Blank.not_mem (hb : Blank cs) (hc : Text.isBlank c = false) : c ∉ cs := by
  intro mem
  rw [hb c mem] at hc
  exact absurd hc (by decide)

/-- Nothing can be trimmed off either end. -/
def Tight (cs : List Char) : Prop :=
  (∃ c rest, cs = c :: rest ∧ Text.isBlank c = false) ∧
    ∃ rest c, cs = rest ++ [c] ∧ Text.isBlank c = false

theorem Tight.ne_nil (h : Tight cs) : cs ≠ [] := by
  obtain ⟨⟨c, rest, rfl, -⟩, -⟩ := h
  simp

theorem tight_of_visible (hn : cs ≠ []) (h : ∀ c ∈ cs, Visible c) : Tight cs := by
  constructor
  · obtain ⟨c, rest, rfl⟩ := List.exists_cons_of_ne_nil hn
    exact ⟨c, rest, rfl, (h c (by simp)).not_blank⟩
  · obtain ⟨rest, c, rfl⟩ := List.eq_nil_or_concat cs |>.resolve_left hn
    exact ⟨rest, c, by simp, (h c (by simp)).not_blank⟩

theorem Tight.append (h : Tight cs) (mid : List Char) (h' : Tight ds) :
    Tight (cs ++ mid ++ ds) := by
  obtain ⟨⟨c, rest, rfl, hc⟩, -⟩ := h
  obtain ⟨-, rest', d, rfl, hd⟩ := h'
  exact ⟨⟨c, rest ++ mid ++ (rest' ++ [d]), by simp, hc⟩,
    ⟨c :: rest ++ mid ++ rest', d, by simp, hd⟩⟩

theorem tight_between (hc : Text.isBlank c = false) (hd : Text.isBlank d = false)
    (mid : List Char) : Tight (c :: mid ++ [d]) :=
  ⟨⟨c, mid ++ [d], rfl, hc⟩, ⟨c :: mid, d, rfl, hd⟩⟩

theorem dropWhile_blanks (hb : Blank cs) (hd : Text.isBlank d = false) :
    (cs ++ d :: ds).dropWhile Text.isBlank = d :: ds := by
  rw [List.dropWhile_append_of_pos hb, List.dropWhile_cons_of_neg (by simp [hd])]

/-- Blanks around a text that has none at its ends are trimmed off, and nothing else. -/
theorem trim_pad (before after : List Char) (hb : Blank before) (ha : Blank after) (h : Tight cs) :
    Text.trim (before ++ cs ++ after) = cs := by
  obtain ⟨⟨c, rest, rfl, hc⟩, ⟨rest', d, last, hd⟩⟩ := h
  have front : (before ++ (c :: rest) ++ after).dropWhile Text.isBlank = c :: rest ++ after := by
    rw [List.append_assoc, List.cons_append, dropWhile_blanks hb hc]
  have turned : (c :: rest ++ after).reverse = after.reverse ++ d :: rest'.reverse := by
    rw [List.reverse_append, last]
    simp
  rw [Text.trim, front, turned, dropWhile_blanks (by simpa [Blank] using ha) hd, last]
  simp

theorem trim_of_tight (h : Tight cs) : Text.trim cs = cs := by
  simpa using trim_pad [] [] blank_nil blank_nil h

/-- What starts with no blank still starts with that character when it is trimmed. -/
theorem trim_cons (hc : Text.isBlank c = false) (cs : List Char) :
    ∃ rest, Text.trim (c :: cs) = c :: rest := by
  have kept : ∀ ds : List Char, ∃ rest, (ds ++ [c]).dropWhile Text.isBlank = rest ++ [c] := by
    intro ds
    induction ds with
    | nil => exact ⟨[], by simp [hc]⟩
    | cons d ds ih =>
      by_cases hd : Text.isBlank d
      · rw [List.cons_append, List.dropWhile_cons_of_pos hd]
        exact ih
      · exact ⟨d :: ds, by rw [List.cons_append, List.dropWhile_cons_of_neg hd]⟩
  obtain ⟨rest, hr⟩ := kept cs.reverse
  refine ⟨rest.reverse, ?_⟩
  rw [Text.trim, List.dropWhile_cons_of_neg (by simp [hc]), List.reverse_cons, hr]
  simp

end Trimming

section Lines
variable {row rest : List Char}

theorem lines_append (h : ∀ c ∈ row, Inline c) :
    Text.lines (row ++ '\n' :: rest) = row :: Text.lines rest := by
  induction row with
  | nil => simp [Text.lines]
  | cons c row ih =>
    have hc := h c (by simp)
    have hr := ih (fun d hd => h d (by simp [hd]))
    rw [List.cons_append, Text.lines, hr]
    · exact hc.1
    · intro rest' he
      exact absurd he hc.2

theorem lines_flatMap {rows : List (List Char)} (h : ∀ row ∈ rows, ∀ c ∈ row, Inline c) :
    Text.lines (rows.flatMap (· ++ ['\n'])) = rows := by
  induction rows with
  | nil => rfl
  | cons row rows ih =>
    have rest := ih (fun r hr => h r (by simp [hr]))
    rw [List.flatMap_cons, List.append_assoc, List.singleton_append,
      lines_append (h row (by simp)), rest]

end Lines

section Keys
variable {key : String}

/-- The key needs no quotes. -/
def Bare (key : String) : Prop := key.toList ≠ [] ∧ ∀ c ∈ key.toList, Toml.isBareKeyChar c = true

theorem bare_key (s : Setting) : Bare s.key := by
  cases s <;> exact ⟨by decide, List.all_eq_true.1 (by decide)⟩

theorem bare_name {s : Section} (hs : s ∈ Section.headed) : Bare s.name := by
  simp only [Section.headed, List.mem_cons, List.not_mem_nil, or_false] at hs
  rcases hs with rfl | rfl | rfl <;> exact ⟨by decide, List.all_eq_true.1 (by decide)⟩

theorem Bare.tight (h : Bare key) : Tight key.toList :=
  tight_of_visible h.1 fun c hc => visible_of_isBareKeyChar (h.2 c hc)

/-- Between two quotes, on one line. -/
def Quoted (cs : List Char) : Prop :=
  ∃ q mid, (q = '"' ∨ q = '\'') ∧ cs = q :: mid ++ [q] ∧ ∀ c ∈ mid, Inline c

theorem inline_toDigits {n : Nat} (hn : n < 128) : ∀ c ∈ Nat.toDigits 16 n, Inline c := by
  have all : ∀ m < 128, (Nat.toDigits 16 m).all (fun c => decide (Inline c)) = true := by decide
  exact forall_mem_of_all (all n hn)

theorem inline_spellChar (c : Char) : ∀ x ∈ Toml.spellChar false c, Inline x := by
  unfold Toml.spellChar
  split
  · exact forall_mem_of_all (by decide)
  · exact forall_mem_of_all (by decide)
  · exact forall_mem_of_all (by decide)
  · exact forall_mem_of_all (by decide)
  · exact forall_mem_of_all (by decide)
  · exact forall_mem_of_all (by decide)
  · next _ feed _ carriage _ _ =>
    split
    · next escape =>
      have small : c.toNat < 128 := by
        simp only [Toml.needsEscape, Bool.or_eq_true, Bool.and_eq_true, decide_eq_true_eq] at escape
        omega
      intro x hx
      simp only [List.cons_append, List.mem_cons, List.mem_append, List.mem_replicate] at hx
      rcases hx with rfl | rfl | ⟨-, rfl⟩ | digit
      · decide
      · decide
      · decide
      · exact inline_toDigits small x digit
    · intro x hx
      obtain rfl := List.mem_singleton.1 hx
      exact ⟨feed, carriage⟩

theorem inline_spellChars (quotes : Nat) (cs : List Char) :
    ∀ x ∈ Toml.spellChars false quotes cs, Inline x := by
  induction cs generalizing quotes with
  | nil => simp [Toml.spellChars]
  | cons c cs ih =>
    by_cases hc : c = '"'
    · subst hc
      intro x hx
      simp only [Toml.spellChars, Bool.false_and, Bool.false_eq_true, if_false, List.mem_cons] at hx
      rcases hx with rfl | rfl | hx
      · decide
      · decide
      · exact ih 0 x hx
    · intro x hx
      rw [Toml.spellChars, List.mem_append] at hx
      · rcases hx with hx | hx
        · exact inline_spellChar c x hx
        · exact ih 0 x hx
      · exact hc

/-- A key is written as it is, or between quotes. -/
theorem spellKey_cases (key : String) :
    Bare key ∧ Toml.spellKey key = key ∨ ¬ Bare key ∧ Quoted (Toml.spellKey key).toList := by
  have bare : (!key.toList.isEmpty && key.toList.all Toml.isBareKeyChar) = true ↔ Bare key := by
    simp [Bare]
  unfold Toml.spellKey
  simp only
  split
  · next h => exact .inl ⟨bare.1 h, rfl⟩
  · next h =>
    refine .inr ⟨fun hb => h (bare.2 hb), ?_⟩
    split
    · next literal =>
      simp only [Bool.and_eq_true, Bool.not_eq_true', List.any_eq_false, Bool.or_eq_true,
        decide_eq_true_eq, not_or] at literal
      refine ⟨'\'', key.toList, .inr rfl, by simp [Toml.between], ?_⟩
      intro c hc
      obtain ⟨escape, feed⟩ := literal.1.1 c hc
      refine ⟨feed, ?_⟩
      rintro rfl
      exact escape (by decide)
    · refine ⟨'"', Toml.spellChars false 0 key.toList, .inl rfl, ?_, inline_spellChars 0 _⟩
      simp [Toml.spellBasic, Toml.between]

end Keys

section Values
variable {v : Value} {cs : List Char}

/-- A truth value, a whole number or a plain string. -/
def Scalar : Value → Prop
  | .bool _ | .integer _ => True
  | .string s => ∀ c ∈ s.toList, Plain c
  | .float _ | .datetime _ | .array _ | .table _ => False

theorem longestRun_eq_zero {c : Char} (h : c ∉ cs) : Toml.longestRun c cs = 0 := by
  -- the run and the longest one both stay at zero
  refine congrArg Prod.snd (List.foldlRecOn (motive := fun p => p = (0, 0)) cs _ rfl ?_)
  rintro _ rfl d hd
  simp [ne_of_mem_of_not_mem hd h]

theorem Plain.needsEscape_eq_false {c : Char} (h : Plain c) : Toml.needsEscape c = false := by
  obtain ⟨-, -, -, low, delete⟩ := h
  simp [Toml.needsEscape, delete, show ¬ c.toNat < 32 by omega]

theorem Plain.spellChar_eq {c : Char} (h : Plain c) : Toml.spellChar false c = [c] := by
  have low : ∀ d : Char, d.toNat < 0x20 → c ≠ d := by
    rintro d hd rfl
    have := h.2.2.2.1
    omega
  unfold Toml.spellChar
  split
  · exact absurd rfl h.2.1
  · exact absurd rfl (low '\n' (by decide))
  · exact absurd rfl (low '\t' (by decide))
  · exact absurd rfl (low '\r' (by decide))
  · exact absurd rfl (low '\x08' (by decide))
  · exact absurd rfl (low '\x0c' (by decide))
  · rw [h.needsEscape_eq_false]
    rfl

theorem spellChars_plain (quotes : Nat) (h : ∀ c ∈ cs, Plain c) :
    Toml.spellChars false quotes cs = cs := by
  induction cs generalizing quotes with
  | nil => rfl
  | cons c cs ih =>
    have hc := h c (by simp)
    rw [Toml.spellChars, hc.spellChar_eq, ih 0 fun d hd => h d (by simp [hd])]
    · rfl
    · exact hc.1

/-- A plain string is written between quotes as it is. -/
theorem inPlace_string {s : String} (h : ∀ c ∈ s.toList, Plain c) :
    (Value.inPlace (.string s)).toList = '"' :: s.toList ++ ['"'] := by
  have escapes : s.toList.any Toml.needsEscape = false := by
    simpa using fun c hc => (h c hc).needsEscape_eq_false
  have backslash : '\\' ∉ s.toList := fun hc => (h _ hc).2.1 rfl
  have feed : '\n' ∉ s.toList := fun hc => absurd (h _ hc).2.2.2.1 (by decide)
  have quote : '"' ∉ s.toList := fun hc => (h _ hc).1 rfl
  have basic : Toml.spellString s = Toml.spellBasic s.toList := by
    simp [Toml.spellString, escapes, backslash, feed, longestRun_eq_zero quote]
  rw [Value.inPlace, basic, Toml.spellBasic, spellChars_plain 0 h]
  simp [Toml.between]

theorem inPlace_ofNat (n : Nat) : (Value.inPlace (.integer n)).toList = Nat.toDigits 10 n := by
  rw [Value.inPlace]
  exact Nat.toList_repr

theorem inPlace_negSucc (n : Nat) :
    (Value.inPlace (.integer (Int.negSucc n))).toList = '-' :: Nat.toDigits 10 (n + 1) := by
  have spelled : (Value.inPlace (.integer (Int.negSucc n))) = "-" ++ (n + 1).repr := by
    rw [Value.inPlace]
    rfl
  rw [spelled, String.toList_append, Nat.toList_repr]
  rfl

/-- A value as it stands behind an equals sign: on one line, with nothing to trim and no comment. -/
structure Spelled (cs : List Char) : Prop where
  tight : Tight cs
  inline : ∀ c ∈ cs, Inline c
  uncomment : Line.uncomment cs = cs

/-- Without a comment sign there is nothing to cut. -/
theorem uncomment_of_not_mem (ht : Tight cs) (hash : '#' ∉ cs) : Line.uncomment cs = cs := by
  have whole : cs.takeWhile (· ≠ '#') = cs := by
    rw [List.takeWhile_eq_self_iff]
    intro c hc
    simpa using ne_of_mem_of_not_mem hc hash
  rw [Line.uncomment]
  simp only [whole, trim_of_tight ht, ite_self]

/-- Words of visible characters without comment signs. -/
theorem spelled_of_visible (hn : cs ≠ []) (h : ∀ c ∈ cs, Visible c) (hash : '#' ∉ cs) :
    Spelled cs where
  tight := tight_of_visible hn h
  inline c hc := (h c hc).inline
  uncomment := uncomment_of_not_mem (tight_of_visible hn h) hash

theorem spelled_inPlace (h : Scalar v) : Spelled v.inPlace.toList := by
  have digits : ∀ n, ∀ c ∈ Nat.toDigits 10 n, c.isDigit = true := fun n c hc =>
    Nat.isDigit_of_mem_toDigits (by decide) (by decide) hc
  have hash : ∀ n, '#' ∉ Nat.toDigits 10 n := fun n mem =>
    absurd (digits n '#' mem) (by decide)
  cases v with
  | bool b =>
    cases b
    · exact spelled_of_visible (by decide) (forall_mem_of_all (by decide)) (by decide)
    · exact spelled_of_visible (by decide) (forall_mem_of_all (by decide)) (by decide)
  | integer i =>
    cases i with
    | ofNat n =>
      rw [Int.ofNat_eq_natCast, inPlace_ofNat]
      exact spelled_of_visible Nat.toDigits_ne_nil
        (fun c hc => visible_of_isDigit (digits n c hc)) (hash n)
    | negSucc n =>
      rw [inPlace_negSucc]
      refine spelled_of_visible (by simp) ?_ (by simp [hash])
      intro c hc
      rcases List.mem_cons.1 hc with rfl | hc
      · exact ⟨by decide, by decide⟩
      · exact visible_of_isDigit (digits _ c hc)
  | string s =>
    have hs : ∀ c ∈ s.toList, Plain c := h
    rw [inPlace_string hs]
    have tight : Tight ('"' :: s.toList ++ ['"']) := tight_between (by decide) (by decide) _
    refine ⟨tight, ?_, uncomment_of_not_mem tight ?_⟩
    · intro c hc
      simp only [List.mem_append, List.mem_cons, List.not_mem_nil, or_false] at hc
      rcases hc with (rfl | hc) | rfl
      · decide
      · exact inline_of_toNat (hs c hc).2.2.2.1
      · decide
    · have clean : '#' ∉ s.toList := fun hc => (hs _ hc).2.2.1 rfl
      simp [clean]
  | float | datetime | array | table => exact h.elim

end Values

section Reading
variable {r : Reading} {key name : String} {v : Value} {cs left rest value : List Char}
  {s : Setting} {p : Section}

theorem find?_eq_some_iff : Setting.find? p cs = some s ↔ s.home = p ∧ s.key.toList = cs := by
  constructor
  · intro h
    simpa using List.find?_some h
  · rintro ⟨rfl, rfl⟩
    cases s <;> decide

theorem ofName?_eq_some_iff :
    Section.ofName? cs = some p ↔ p ∈ Section.headed ∧ p.name.toList = cs := by
  constructor
  · intro h
    exact ⟨List.mem_of_find?_eq_some h, by simpa using List.find?_some h⟩
  · rintro ⟨hp, rfl⟩
    simp only [Section.headed, List.mem_cons, List.not_mem_nil, or_false] at hp
    rcases hp with rfl | rfl | rfl <;> decide

/-- A key that starts with a quote is no setting. -/
theorem find?_quote {q : Char} (hq : q = '"' ∨ q = '\'') : Setting.find? p (q :: cs) = none := by
  by_contra h
  obtain ⟨s, hs⟩ := Option.ne_none_iff_exists'.1 h
  obtain ⟨-, spelled⟩ := find?_eq_some_iff.1 hs
  have first := (bare_key s).2 q (by simp [spelled])
  rcases hq with rfl | rfl <;> exact absurd first (by decide)

theorem ofName?_quote {q : Char} (hq : q = '"' ∨ q = '\'') : Section.ofName? (q :: cs) = none := by
  by_contra h
  obtain ⟨s, hs⟩ := Option.ne_none_iff_exists'.1 h
  obtain ⟨headed, spelled⟩ := ofName?_eq_some_iff.1 hs
  have first := (bare_name headed).2 q (by simp [spelled])
  rcases hq with rfl | rfl <;> exact absurd first (by decide)

theorem find?_of_not_bare (h : ¬ Bare key) : Setting.find? p key.toList = none := by
  by_contra hf
  obtain ⟨s, hs⟩ := Option.ne_none_iff_exists'.1 hf
  obtain ⟨-, spelled⟩ := find?_eq_some_iff.1 hs
  exact h (String.toList_inj.1 spelled ▸ bare_key s)

theorem ofName?_of_not_bare (h : ¬ Bare name) : Section.ofName? name.toList = none := by
  by_contra hf
  obtain ⟨s, hs⟩ := Option.ne_none_iff_exists'.1 hf
  obtain ⟨headed, spelled⟩ := ofName?_eq_some_iff.1 hs
  exact h (String.toList_inj.1 spelled ▸ bare_name headed)

theorem Quoted.tight (h : Quoted cs) : Tight cs := by
  obtain ⟨q, mid, hq, rfl, -⟩ := h
  have blank : Text.isBlank q = false := by rcases hq with rfl | rfl <;> decide
  exact tight_between blank blank mid

theorem read_of_head {c : Char} (ht : Tight (c :: cs)) (comment : c ≠ '#') (bracket : c ≠ '[') :
    Line.read (c :: cs) = Line.readPair (c :: cs) := by
  unfold Line.read
  rw [trim_of_tight ht]
  dsimp only
  split
  · next h => simp at h
  · next h => exact absurd (List.cons.inj h).1 comment
  · next h => exact absurd (List.cons.inj h).1 bracket
  · rfl

/-- A line is split at the first equals sign. -/
theorem readPair_split (h : '=' ∉ left) (rest : List Char) :
    Line.readPair (left ++ '=' :: rest) =
      if (Text.trim left).isEmpty || (Line.uncomment (Text.trim rest)).isEmpty then .nothing
      else .pair (Text.trim left) (Line.uncomment (Text.trim rest)) := by
  have clear : ∀ c ∈ left, decide (c ≠ '=') = true := by
    intro c hc
    simpa using ne_of_mem_of_not_mem hc h
  simp only [Line.readPair, List.dropWhile_append_of_pos clear,
    List.takeWhile_append_of_pos clear]
  simp

/-- A pair with a bare key, however much white space stands around the equals sign. -/
theorem read_pair (hk : Bare key) (hl : Blank left)
    (ht : Tight (key.toList ++ left ++ '=' :: rest))
    (hv : Line.uncomment (Text.trim rest) = value) (hn : value ≠ []) :
    Line.read (key.toList ++ left ++ '=' :: rest) = .pair key.toList value := by
  have clear : '=' ∉ key.toList ++ left := by
    intro mem
    rcases List.mem_append.1 mem with mem | mem
    · exact ne_of_isBareKeyChar (hk.2 _ mem) (by decide) rfl
    · exact hl.not_mem (by decide) mem
  have named : Text.trim (key.toList ++ left) = key.toList :=
    trim_pad [] left blank_nil hl hk.tight
  have pair : Line.readPair (key.toList ++ left ++ '=' :: rest) = .pair key.toList value := by
    rw [readPair_split clear, named, hv, List.isEmpty_eq_false_iff.2 hk.1,
      List.isEmpty_eq_false_iff.2 hn]
    rfl
  rw [← pair]
  obtain ⟨c, cs, hc⟩ := List.exists_cons_of_ne_nil hk.1
  have first := hk.2 c (by simp [hc])
  rw [hc] at ht ⊢
  exact read_of_head ht (ne_of_isBareKeyChar first (by decide))
    (ne_of_isBareKeyChar first (by decide))

/-- A pair with a bare key is read as it was written. -/
theorem read_bare (hb : Bare key) (hs : Spelled value) :
    Line.read (key.toList ++ [' ', '=', ' '] ++ value) = .pair key.toList value := by
  have space : Blank [' '] := blank_singleton (by decide)
  have tight : Tight (key.toList ++ [' '] ++ '=' :: ([' '] ++ value)) := by
    simpa using hb.tight.append [' ', '=', ' '] hs.tight
  have trimmed : Text.trim ([' '] ++ value) = value := by
    simpa using trim_pad [' '] [] space blank_nil hs.tight
  have read := read_pair hb space tight (by rw [trimmed, hs.uncomment]) hs.tight.ne_nil
  simpa using read

/-- A pair with a quoted key is no pair to the reader, or one whose key starts with the quote. -/
theorem read_quoted (hq : Quoted cs) (hs : Spelled value) :
    Line.read (cs ++ [' ', '=', ' '] ++ value) = .nothing ∨
      ∃ q rest value', (q = '"' ∨ q = '\'') ∧
        Line.read (cs ++ [' ', '=', ' '] ++ value) = .pair (q :: rest) value' := by
  have tight := hq.tight.append [' ', '=', ' '] hs.tight
  obtain ⟨q, mid, quote, rfl, -⟩ := hq
  have blank : Text.isBlank q = false := by rcases quote with rfl | rfl <;> decide
  have special : q ≠ '#' ∧ q ≠ '[' ∧ q ≠ '=' := by rcases quote with rfl | rfl <;> decide
  have line : q :: mid ++ [q] ++ [' ', '=', ' '] ++ value =
      q :: (mid ++ [q] ++ [' ', '=', ' '] ++ value) := by simp
  rw [line] at tight ⊢
  rw [read_of_head tight special.1 special.2.1, Line.readPair]
  split
  · exact .inl rfl
  · simp only
    split
    · exact .inl rfl
    · rw [List.takeWhile_cons_of_pos (by simpa using special.2.2)]
      obtain ⟨rest, trimmed⟩ := trim_cons blank
        ((mid ++ [q] ++ [' ', '=', ' '] ++ value).takeWhile (· ≠ '='))
      exact .inr ⟨q, rest, _, quote, by rw [trimmed]⟩

/-- A row says to the reader what its entry says, quotes around the key or not. -/
theorem step_entry (h : Scalar v) (r : Reading) (key : String) :
    r.step (.read (Toml.entryInPlace (key, v)).toList) =
      r.step (.pair key.toList v.inPlace.toList) := by
  have spelled := spelled_inPlace h
  have row : (Toml.entryInPlace (key, v)).toList =
      (Toml.spellKey key).toList ++ [' ', '=', ' '] ++ v.inPlace.toList := by
    rw [Toml.entryInPlace]
    simp [String.toList_append]
  rw [row]
  rcases spellKey_cases key with ⟨bare, same⟩ | ⟨unbare, quoted⟩
  · rw [same, read_bare bare spelled]
  · have none := find?_of_not_bare (p := r.place) unbare
    rcases read_quoted quoted spelled with read | ⟨q, rest, value', quote, read⟩
    · rw [read]
      simp [Reading.step, none]
    · rw [read]
      simp [Reading.step, none, find?_quote quote]

/-- A header. -/
def header (name : String) : String := "[" ++ Toml.spellKey name ++ "]"

theorem read_header {inner : List Char} (h : Tight inner) :
    Line.read ('[' :: inner ++ [']']) = .header inner := by
  rw [Line.read, trim_of_tight (tight_between (by decide) (by decide) inner)]
  simp [trim_of_tight h]

theorem step_header (r : Reading) (name : String) :
    r.step (.read (header name).toList) = r.step (.header name.toList) := by
  have row : (header name).toList = '[' :: (Toml.spellKey name).toList ++ [']'] := by
    simp [header, String.toList_append]
  rw [row]
  rcases spellKey_cases name with ⟨bare, same⟩ | ⟨unbare, quoted⟩
  · rw [same, read_header bare.tight]
  · rw [read_header quoted.tight]
    obtain ⟨q, mid, quote, spelled, -⟩ := quoted
    simp [Reading.step, ofName?_of_not_bare unbare, spelled, ofName?_quote quote]

end Reading

section Writing
variable {t : Table}

/-- The rows under the header of an entry that is a section. -/
def sectionRows : String × Value → List String
  | (name, .table t) => header name :: Toml.ownLines t
  | _ => []

/-- The rows of a table: its own entries first, then every section under its header. -/
def rows (t : Table) : List String := Toml.ownLines t ++ t.flatMap sectionRows

/-- A table as a text, one row a line. -/
def written (t : Table) : List Char := ((rows t).map String.toList).flatMap (· ++ ['\n'])

/-- A table of scalars, each under a key of its own. -/
structure Simple (t : Table) : Prop where
  keys : (t.map (·.1)).Nodup
  scalar : ∀ {e}, e ∈ t → Scalar e.2

/-- A table of scalars and of sections with nothing but scalars in them. -/
structure Flat (t : Table) : Prop where
  keys : (t.map (·.1)).Nodup
  entry : ∀ {e}, e ∈ t → Scalar e.2 ∨ ∃ s, e.2 = .table s ∧ Simple s

theorem inline_spellKey (key : String) : ∀ c ∈ (Toml.spellKey key).toList, Inline c := by
  rcases spellKey_cases key with ⟨bare, same⟩ | ⟨-, q, mid, quote, spelled, inline⟩
  · rw [same]
    intro c hc
    exact (visible_of_isBareKeyChar (bare.2 c hc)).inline
  · rw [spelled]
    intro c hc
    have hq : Inline q := by rcases quote with rfl | rfl <;> decide
    simp only [List.cons_append, List.mem_cons, List.mem_append, List.not_mem_nil,
      or_false] at hc
    rcases hc with rfl | hc | rfl
    · exact hq
    · exact inline c hc
    · exact hq

theorem inline_entry {v : Value} (h : Scalar v) (key : String) :
    ∀ c ∈ (Toml.entryInPlace (key, v)).toList, Inline c := by
  intro c hc
  rw [Toml.entryInPlace, String.toList_append, String.toList_append, List.mem_append,
    List.mem_append] at hc
  rcases hc with (hc | hc) | hc
  · exact inline_spellKey key c hc
  · have equals : ∀ c ∈ " = ".toList, Inline c := forall_mem_of_all (by decide)
    exact equals c hc
  · exact (spelled_inPlace h).inline c hc

theorem inline_header (name : String) : ∀ c ∈ (header name).toList, Inline c := by
  intro c hc
  rw [header, String.toList_append, String.toList_append, List.mem_append, List.mem_append] at hc
  have brackets : ∀ c ∈ "[".toList ++ "]".toList, Inline c := forall_mem_of_all (by decide)
  rcases hc with (hc | hc) | hc
  · exact brackets c (List.mem_append_left _ hc)
  · exact inline_spellKey name c hc
  · exact brackets c (List.mem_append_right _ hc)

/-- A scalar has no header. -/
theorem isHeaded_of_scalar {v : Value} (h : Scalar v) : v.isHeaded = false := by
  cases v with
  | bool | integer | string => rfl
  | float | datetime | array | table => exact h.elim

theorem Simple.ownLines (h : Simple t) : Toml.ownLines t = t.map Toml.entryInPlace := by
  rw [Toml.ownLines, List.filter_eq_self.2]
  intro e he
  simp [isHeaded_of_scalar (h.scalar he)]

/-- The entries of a flat table that are no sections. -/
theorem Flat.simple (h : Flat t) : Simple (t.filter fun e => !e.2.isHeaded) where
  keys := (List.filter_sublist.map _).nodup h.keys
  scalar := by
    intro e he
    rw [List.mem_filter] at he
    rcases h.entry he.1 with scalar | ⟨s, table, -⟩
    · exact scalar
    · rw [table] at he
      exact absurd he.2 (by simp [Value.isHeaded])

theorem inline_ownLines {row : String} (h : Simple t) (hr : row ∈ t.map Toml.entryInPlace) :
    ∀ c ∈ row.toList, Inline c := by
  obtain ⟨⟨key, v⟩, he, rfl⟩ := List.mem_map.1 hr
  exact inline_entry (h.scalar he) key

/-- The rows are the lines of the text. -/
theorem Flat.lines_written (h : Flat t) : Text.lines (written t) = (rows t).map String.toList := by
  apply lines_flatMap
  intro line hl
  obtain ⟨row, hr, rfl⟩ := List.mem_map.1 hl
  rw [rows, List.mem_append] at hr
  rcases hr with own | under
  · exact inline_ownLines h.simple own
  · obtain ⟨⟨name, v⟩, he, hr⟩ := List.mem_flatMap.1 under
    rcases h.entry he with scalar | ⟨s, rfl, simple⟩
    · cases v with
      | table => exact scalar.elim
      | bool | integer | float | datetime | string | array => simp [sectionRows] at hr
    · rw [sectionRows, simple.ownLines, List.mem_cons] at hr
      rcases hr with rfl | hr
      · exact inline_header name
      · exact inline_ownLines simple hr

end Writing

end Joybus.Config
