import Joybus.Config.Check
import Joybus.Config.Embedded
import Joybus.Proofs.Numerals
import Joybus.Proofs.Rows
import Mathlib.Algebra.Group.Nat.Defs

/-! The check of a configuration and the reader of its text: which tables that pass the check are
loaded as they were written. -/
namespace Joybus.Config

open Toml (Table Value)

section Values
variable {v : Value} {value : List Char}

theorem number?_eq_none {w : Nat} (hw : 4 ≤ w) {c : Char} (hc : c ∈ value)
    (digit : c.isDigit = false) (plus : c ≠ '+') (underscore : c ≠ '_') :
    number? w value = none := by
  rw [Option.eq_none_iff_forall_ne_some]
  intro n read
  rcases ((number?_eq_some_iff hw).1 read).1.mem hc with is | is | is
  · exact absurd (is.symm.trans digit) (by decide)
  · exact plus is
  · exact underscore is

theorem filter_toDigits (n : Nat) :
    (Nat.toDigits 10 n).filter (· ≠ '_') = Nat.toDigits 10 n := by
  rw [List.filter_eq_self]
  intro c hc
  have digit := Nat.isDigit_of_mem_toDigits (by decide) (by decide) hc
  rw [decide_eq_true_eq]
  rintro rfl
  exact absurd digit (by decide)

theorem denotes_toDigits_iff {m n : Nat} (hn : n < 10 ^ 24) :
    Denotes (Nat.toDigits 10 m) n ↔ m = n := by
  rw [denotes_iff_of_digits (filter_toDigits m)
    (fun c hc => Nat.isDigit_of_mem_toDigits (by decide) (by decide) hc) Nat.toDigits_ne_nil,
    Nat.ofDigitChars_toDigits (by decide) (by decide),
    Nat.length_toDigits_le_iff (by decide) (by decide)]
  omega

/-- A number is read from the spelling of a whole number within the limit, and of nothing else. -/
theorem number?_inPlace {w : Nat} (limit : Nat) (hw : 4 ≤ w) (hl : 2 ^ w = limit + 1)
    (short : limit < 10 ^ 24) (h : Scalar v) (n : Nat) :
    number? w v.inPlace.toList = some n ↔ v = .integer n ∧ n ≤ limit := by
  cases v with
  | bool b =>
    have none : number? w (Value.inPlace (.bool b)).toList = none := by
      cases b
      · exact number?_eq_none hw (c := 'f') (by decide) (by decide) (by decide) (by decide)
      · exact number?_eq_none hw (c := 't') (by decide) (by decide) (by decide) (by decide)
    simp [none]
  | integer i =>
    cases i with
    | ofNat m =>
      rw [Int.ofNat_eq_natCast, inPlace_ofNat, number?_eq_some_iff hw, hl, Nat.lt_succ_iff,
        Value.integer.injEq, Int.natCast_inj]
      constructor
      · rintro ⟨denoted, le⟩
        exact ⟨(denotes_toDigits_iff (by omega)).1 denoted, le⟩
      · rintro ⟨same, le⟩
        exact ⟨(denotes_toDigits_iff (by omega)).2 same, le⟩
    | negSucc m =>
      have none : number? w (Value.inPlace (.integer (Int.negSucc m))).toList = none := by
        rw [inPlace_negSucc]
        exact number?_eq_none hw (c := '-') (by simp) (by decide) (by decide) (by decide)
      simp [none]
  | string s =>
    have none : number? w (Value.inPlace (.string s)).toList = none := by
      rw [inPlace_string h]
      exact number?_eq_none hw (c := '"') (by simp) (by decide) (by decide) (by decide)
    simp [none]
  | float | datetime | array | table => exact h.elim

/-- The spelling of a whole number starts with a digit or a sign. -/
theorem inPlace_integer_ne {c : Char} (i : Int) (rest : List Char) (digit : c.isDigit = false)
    (minus : c ≠ '-') : (Value.inPlace (.integer i)).toList ≠ c :: rest := by
  cases i with
  | ofNat n =>
    rw [Int.ofNat_eq_natCast, inPlace_ofNat]
    intro he
    have first := Nat.isDigit_of_mem_toDigits (b := 10) (c := c) (n := n) (by decide) (by decide)
      (by simp [he])
    rw [first] at digit
    exact absurd digit (by decide)
  | negSucc n =>
    rw [inPlace_negSucc]
    intro he
    exact minus (List.cons.inj he).1.symm

theorem unquote_of_ne {c : Char} {rest : List Char} (hc : c ≠ '"') :
    unquote (c :: rest) = c :: rest := by
  unfold unquote
  split
  · next he => exact absurd (List.cons.inj he).1 hc
  · rfl

/-- Between its quotes, a value is one of the words of the settings if it is that string. -/
theorem unquote_inPlace (word : String) (hw : word ∈ ["dma", "fifo", "one"]) (h : Scalar v) :
    unquote v.inPlace.toList = word.toList ↔ v = .string word := by
  obtain ⟨c, rest, spelled, letter, minus⟩ : ∃ c rest, word.toList = c :: rest ∧
      c.isDigit = false ∧ c ≠ '-' := by
    simp only [List.mem_cons, List.not_mem_nil, or_false] at hw
    rcases hw with rfl | rfl | rfl <;> exact ⟨_, _, rfl, by decide, by decide⟩
  cases v with
  | bool b =>
    have other : unquote (Value.inPlace (.bool b)).toList ≠ word.toList := by
      simp only [List.mem_cons, List.not_mem_nil, or_false] at hw
      cases b <;> rcases hw with rfl | rfl | rfl <;> decide
    simp [other]
  | integer i =>
    have other : unquote (Value.inPlace (.integer i)).toList ≠ word.toList := by
      obtain ⟨d, ds, first⟩ := List.exists_cons_of_ne_nil
        (spelled_inPlace (v := .integer i) trivial).tight.ne_nil
      have unquoted : d ≠ '"' := by
        rintro rfl
        exact inPlace_integer_ne i ds (by decide) (by decide) first
      rw [first, unquote_of_ne unquoted, ← first, spelled]
      exact inPlace_integer_ne i rest letter minus
    simp [other]
  | string s =>
    have inner : unquote (Value.inPlace (.string s)).toList = s.toList := by
      rw [inPlace_string h]
      simp [unquote]
    rw [inner, String.toList_inj, Value.string.injEq]
  | float | datetime | array | table => exact h.elim

/-- The word for a mode. -/
def modeWord : TransferMode → String
  | .dma => "dma"
  | .fifo => "fifo"

/-- The word for a packing. -/
def packingWord : Packing → String
  | .one => "one"
  | .two => "two"

theorem readMode_inPlace (h : Scalar v) (m : TransferMode) :
    readMode v.inPlace.toList = some m ↔ v = .string (modeWord m) := by
  have dma := unquote_inPlace "dma" (by simp) h
  have fifo := unquote_inPlace "fifo" (by simp) h
  unfold readMode
  by_cases hd : v = .string "dma"
  · subst hd
    rw [if_pos (dma.2 rfl)]
    cases m <;> simp [modeWord]
  · rw [if_neg (mt dma.1 hd)]
    by_cases hf : v = .string "fifo"
    · subst hf
      rw [if_pos (fifo.2 rfl)]
      cases m <;> simp [modeWord]
    · rw [if_neg (mt fifo.1 hf)]
      cases m <;> simp [modeWord, hd, hf]

theorem readPacking_inPlace (h : Scalar v) (p : Packing) :
    readPacking v.inPlace.toList = some p ↔ v = .string (packingWord p) ∧ p = .one := by
  have one := unquote_inPlace "one" (by simp) h
  unfold readPacking
  by_cases ho : v = .string "one"
  · subst ho
    rw [if_pos (one.2 rfl)]
    cases p <;> simp [packingWord]
  · rw [if_neg (mt one.1 ho)]
    cases p <;> simp [packingWord, ho]

theorem readSwitch_inPlace (h : Scalar v) (b : Bool) :
    readSwitch v.inPlace.toList = some b ↔ v = .bool b := by
  cases v with
  | bool b' =>
    have read : readSwitch (Value.inPlace (.bool b')).toList = some b' := by cases b' <;> rfl
    simp [read]
  | integer i =>
    have none : readSwitch (Value.inPlace (.integer i)).toList = none := by
      have yes := inPlace_integer_ne (c := 't') i "rue".toList (by decide) (by decide)
      have no := inPlace_integer_ne (c := 'f') i "alse".toList (by decide) (by decide)
      exact (if_neg yes).trans (if_neg no)
    simp [none]
  | string s =>
    have none : readSwitch (Value.inPlace (.string s)).toList = none := by
      rw [inPlace_string h]
      simp [readSwitch]
    simp [none]
  | float | datetime | array | table => exact h.elim

end Values

section Settings
variable {s : Setting} {v : Value}

/-- What a configuration has for a setting. -/
def Setting.value (c : BusConfig) : Setting → Value
  | version => .integer c.version
  | mode => .string (modeWord c.link.mode)
  | packing => .string (packingWord c.link.packing)
  | busTurnTimeout => .integer c.link.busTurnTimeout
  | pollInterval => .integer c.link.pollInterval
  | pioClock => .integer c.timing.pioClock
  | rxSettle => .integer c.timing.rxSettle
  | txTimeout => .integer c.timing.txTimeout
  | rxTimeout => .integer c.timing.rxTimeout
  | enabled => .bool c.loopback.enabled
  | interval => .integer c.loopback.interval
  | interFrame => .integer c.loopback.interFrame

/-- The greatest number of 32 bits. -/
def numberLimit : Nat := 4294967295

/-- The values a setting takes. -/
def Setting.Fits (v : Value) : Setting → Prop
  | version => ∃ n : Nat, v = .integer n ∧ n ≤ 255
  | mode => ∃ m, v = .string (modeWord m)
  | packing => ∃ p, v = .string (packingWord p) ∧ p = .one
  | enabled => ∃ b, v = .bool b
  | busTurnTimeout | pollInterval | pioClock | rxSettle | txTimeout | rxTimeout | interval
  | interFrame => ∃ n : Nat, v = .integer n ∧ n ≤ numberLimit

/-- What a setting makes of the text of a value. -/
def Setting.read? (text : List Char) : Setting → Option Value
  | version => (number? 8 text).map fun n : Nat => .integer n
  | mode => (readMode text).map fun m => .string (modeWord m)
  | packing => (readPacking text).map fun p => .string (packingWord p)
  | enabled => (readSwitch text).map .bool
  | busTurnTimeout | pollInterval | pioClock | rxSettle | txTimeout | rxTimeout | interval
  | interFrame => (number? 32 text).map fun n : Nat => .integer n

/-- A setting is assigned what it reads, and the other settings keep their values. -/
theorem assign_of_read {text : List Char} (h : s.read? text = some v) (c : BusConfig) :
    ∃ c', s.assign text c = .ok c' ∧
      ∀ t : Setting, t.value c' = if t = s then v else t.value c := by
  cases s <;> obtain ⟨x, read, rfl⟩ := Option.map_eq_some_iff.1 h
  case mode | packing | enabled =>
    exact ⟨_, by simp only [Setting.assign, read]; rfl, fun t => by cases t <;> rfl⟩
  all_goals
    obtain ⟨m, number, rfl⟩ := readNumber_of_number? read
    exact ⟨_, by simp only [Setting.assign, number]; rfl, fun t => by cases t <;> rfl⟩

theorem assign_of_read_none {text : List Char} (h : s.read? text = none) (c : BusConfig) :
    s.assign text c = .error .invalidValue := by
  cases s <;> have read := Option.map_eq_none_iff.1 h
  case mode | packing | enabled =>
    simp only [Setting.assign, read]
    rfl
  all_goals
    simp only [Setting.assign, readNumber_of_number?_none read]
    rfl

/-- A setting reads the values that fit it from their spelling, and no others. -/
theorem read?_inPlace (h : Scalar v) (s : Setting) (w : Value) :
    s.read? v.inPlace.toList = some w ↔ v = w ∧ s.Fits v := by
  cases s <;> simp only [Setting.read?, Option.map_eq_some_iff, Setting.Fits]
  case version =>
    simp only [number?_inPlace (w := 8) 255 (by decide) (by decide) (by decide) h]
    grind
  case mode =>
    simp only [readMode_inPlace h]
    grind
  case packing =>
    simp only [readPacking_inPlace h]
    grind
  case enabled =>
    simp only [readSwitch_inPlace h]
    grind
  all_goals
    simp only [number?_inPlace (w := 32) numberLimit (by decide) (by decide) (by decide) h]
    grind

end Settings

section Entries
variable {r : Reading} {es : Table} {p : Section} {s : Setting} {key : String} {v : Value}

/-- Every setting of a section fits what it is given there. -/
def Admits (p : Section) (es : Table) : Prop :=
  ∀ {s : Setting} {v}, s.home = p → es.get? s.key = some v → s.Fits v

@[simp] theorem get?_nil (key : String) : Table.get? [] key = none := rfl

theorem get?_cons (key : String) (v : Value) (es : Table) (other : String) :
    Table.get? ((key, v) :: es) other = if key = other then some v else Table.get? es other := by
  by_cases h : key = other <;> simp [Table.get?, h]

theorem get?_eq_none (h : key ∉ es.map (·.1)) : es.get? key = none := by
  rw [Table.get?, Option.map_eq_none_iff, List.find?_eq_none]
  intro e he
  have hk : e.1 ≠ key := fun hk => h (List.mem_map.2 ⟨e, he, hk⟩)
  simpa using hk

theorem Simple.of_cons {e : String × Value} (h : Simple (e :: es)) : Simple es where
  keys := (List.nodup_cons.1 h.keys).2
  scalar he := h.scalar (List.mem_cons_of_mem _ he)

theorem Simple.get?_eq_none (h : Simple ((key, v) :: es)) : es.get? key = none :=
  Config.get?_eq_none (List.nodup_cons.1 h.keys).1

theorem key_of_find? (hk : Setting.find? p key.toList = some s) : s.home = p ∧ s.key = key := by
  obtain ⟨home, spelled⟩ := find?_eq_some_iff.1 hk
  exact ⟨home, String.toList_inj.1 spelled⟩

theorem ne_of_find?_none {t : Setting} (hk : Setting.find? p key.toList = none) (ht : t.home = p) :
    key ≠ t.key := by
  rintro rfl
  rw [find?_eq_some_iff.2 ⟨ht, rfl⟩] at hk
  exact absurd hk (by simp)

theorem ne_of_find?_some {t : Setting} (hk : Setting.find? p key.toList = some s)
    (ht : t.home = p) (hts : t ≠ s) : key ≠ t.key := by
  rintro rfl
  rw [find?_eq_some_iff.2 ⟨ht, rfl⟩, Option.some_inj] at hk
  exact hts hk

theorem admits_cons_none (hk : Setting.find? p key.toList = none) :
    Admits p ((key, v) :: es) ↔ Admits p es := by
  have same : ∀ {t : Setting}, t.home = p →
      Table.get? ((key, v) :: es) t.key = es.get? t.key := by
    intro t ht
    rw [get?_cons, if_neg (ne_of_find?_none hk ht)]
  constructor
  · intro h t w ht hw
    exact h ht ((same ht).trans hw)
  · intro h t w ht hw
    exact h ht ((same ht).symm.trans hw)

theorem admits_cons_some (hk : Setting.find? p key.toList = some s) (fresh : es.get? key = none) :
    Admits p ((key, v) :: es) ↔ s.Fits v ∧ Admits p es := by
  obtain ⟨home, rfl⟩ := key_of_find? hk
  have same : ∀ {t : Setting}, t.home = p → t ≠ s →
      Table.get? ((s.key, v) :: es) t.key = es.get? t.key := by
    intro t ht hts
    rw [get?_cons, if_neg (ne_of_find?_some hk ht hts)]
  constructor
  · intro h
    refine ⟨h home (by rw [get?_cons, if_pos rfl]), ?_⟩
    intro t w ht hw
    have hts : t ≠ s := by
      rintro rfl
      rw [fresh] at hw
      exact absurd hw (by simp)
    exact h ht ((same ht hts).trans hw)
  · rintro ⟨fits, h⟩ t w ht hw
    by_cases hts : t = s
    · subst hts
      rw [get?_cons, if_pos rfl, Option.some_inj] at hw
      exact hw ▸ fits
    · exact h ht ((same ht hts).symm.trans hw)

/-- An entry that is no setting where it stands is passed over. -/
theorem step_unknown (h : Scalar v) (hk : Setting.find? r.place key.toList = none) :
    r.step (.read (Toml.entryInPlace (key, v)).toList) = .ok r := by
  rw [step_entry h]
  simp [Reading.step, hk]

theorem step_fitting (h : Scalar v) (hk : Setting.find? r.place key.toList = some s)
    (fits : s.Fits v) : ∃ c, r.step (.read (Toml.entryInPlace (key, v)).toList) =
      .ok { r with config := c } ∧ ∀ t : Setting, t.value c = if t = s then v else t.value r.config := by
  obtain ⟨c, assigned, values⟩ := assign_of_read ((read?_inPlace h s v).2 ⟨rfl, fits⟩) r.config
  refine ⟨c, ?_, values⟩
  rw [step_entry h]
  simp [Reading.step, hk, assigned]

theorem step_unfit (h : Scalar v) (hk : Setting.find? r.place key.toList = some s)
    (unfit : ¬ s.Fits v) : ∃ e, r.step (.read (Toml.entryInPlace (key, v)).toList) = .error e := by
  have refused : s.assign v.inPlace.toList r.config = .error .invalidValue := by
    apply assign_of_read_none
    by_contra read
    obtain ⟨w, read⟩ := Option.ne_none_iff_exists'.1 read
    exact unfit ((read?_inPlace h s w).1 read).2
  refine ⟨.invalidValue, ?_⟩
  rw [step_entry h]
  simp [Reading.step, hk, refused]

theorem steps_cons_ok {raw : List Char} {next : Reading} (h : r.step (.read raw) = .ok next)
    (rest : List (List Char)) : r.steps (raw :: rest) = next.steps rest := by
  rw [Reading.steps, h]

theorem steps_cons_error {raw : List Char} {e : TextError} (h : r.step (.read raw) = .error e)
    (rest : List (List Char)) : r.steps (raw :: rest) = .error e := by
  rw [Reading.steps, h]

/-- What a section gives a setting, or else what it was. -/
def givenOr (es : Table) (s : Setting) (v : Value) : Value := (es.get? s.key).getD v

/-- The entries of a section set its settings, if they all fit. -/
theorem steps_entries (hs : Simple es) (ha : Admits r.place es) (rest : List (List Char)) :
    ∃ c, r.steps (es.map (fun e => (Toml.entryInPlace e).toList) ++ rest) =
        Reading.steps { r with config := c } rest ∧
      ∀ s : Setting, s.value c =
        if s.home = r.place then givenOr es s (s.value r.config) else s.value r.config := by
  induction es generalizing r with
  | nil => exact ⟨r.config, rfl, by simp [givenOr]⟩
  | cons e es ih =>
    obtain ⟨key, v⟩ := e
    have scalar : Scalar v := hs.scalar (List.mem_cons_self ..)
    cases hk : Setting.find? r.place key.toList with
    | none =>
      obtain ⟨c, steps, values⟩ := ih hs.of_cons ((admits_cons_none hk).1 ha)
      refine ⟨c, ?_, ?_⟩
      · rw [List.map_cons, List.cons_append, steps_cons_ok (step_unknown scalar hk), steps]
      · intro s
        rw [values]
        by_cases home : s.home = r.place
        · simp only [home, if_true, givenOr, get?_cons, if_neg (ne_of_find?_none hk home)]
        · simp only [home, if_false]
    | some s =>
      have fresh := hs.get?_eq_none
      obtain ⟨fits, admits⟩ := (admits_cons_some hk fresh).1 ha
      obtain ⟨c, step, assigned⟩ := step_fitting scalar hk fits
      obtain ⟨c', steps, values⟩ := ih (r := { r with config := c }) hs.of_cons admits
      obtain ⟨home, rfl⟩ := key_of_find? hk
      refine ⟨c', ?_, ?_⟩
      · rw [List.map_cons, List.cons_append, steps_cons_ok step, steps]
      · intro t
        rw [values, assigned]
        by_cases hts : t = s
        · subst hts
          simp [home, givenOr, get?_cons, fresh]
        · by_cases ht : t.home = r.place
          · simp only [ht, hts, if_true, if_false, givenOr, get?_cons,
              if_neg (ne_of_find?_some hk ht hts)]
          · simp only [ht, hts, if_false]

/-- One that does not fit is an error. -/
theorem steps_entries_error (hs : Simple es) (ha : ¬ Admits r.place es) (rest : List (List Char)) :
    ∃ e, r.steps (es.map (fun e => (Toml.entryInPlace e).toList) ++ rest) = .error e := by
  induction es generalizing r with
  | nil => exact absurd (fun {s v} _ hv => by simp at hv) ha
  | cons e es ih =>
    obtain ⟨key, v⟩ := e
    have scalar : Scalar v := hs.scalar (List.mem_cons_self ..)
    rw [List.map_cons, List.cons_append]
    cases hk : Setting.find? r.place key.toList with
    | none =>
      rw [steps_cons_ok (step_unknown scalar hk)]
      exact ih hs.of_cons (mt (admits_cons_none hk).2 ha)
    | some s =>
      rw [admits_cons_some hk hs.get?_eq_none, not_and] at ha
      by_cases fits : s.Fits v
      · obtain ⟨c, step, -⟩ := step_fitting scalar hk fits
        rw [steps_cons_ok step]
        exact ih (r := { r with config := c }) hs.of_cons (ha fits)
      · obtain ⟨e, step⟩ := step_unfit scalar hk fits
        exact ⟨e, steps_cons_error step _⟩

end Entries

section Sections
variable {r : Reading} {t : Table} {p q : Section} {name : String} {v : Value}

theorem name_injective (h : p.name = q.name) : p = q := by
  cases p <;> cases q <;> first | rfl | exact absurd h (by decide)

/-- The entries of the section with the given name. -/
def under (t : Table) (name : String) : Table := ((t.get? name).map Value.entries).getD []

/-- All sections are known, and what stands in them fits. -/
def Sectioned (t : Table) : Prop :=
  ∀ {name s}, (name, Value.table s) ∈ t → ∃ p ∈ Section.headed, p.name = name ∧ Admits p s

theorem sectionRows_of_scalar (h : Scalar v) (name : String) : sectionRows (name, v) = [] := by
  cases v with
  | table => exact h.elim
  | bool | integer | float | datetime | string | array => rfl

theorem entries_of_scalar (h : Scalar v) : v.entries = [] := by
  cases v with
  | table => exact h.elim
  | bool | integer | float | datetime | string | array => rfl

theorem Flat.of_cons {e : String × Value} (h : Flat (e :: t)) : Flat t where
  keys := (List.nodup_cons.1 h.keys).2
  entry he := h.entry (List.mem_cons_of_mem _ he)

theorem Flat.under_eq_nil (h : Flat ((name, v) :: t)) : under t name = [] := by
  rw [under, Config.get?_eq_none (List.nodup_cons.1 h.keys).1]
  rfl

theorem under_cons (name : String) (v : Value) (t : Table) (other : String) :
    under ((name, v) :: t) other = if name = other then v.entries else under t other := by
  rw [under, get?_cons]
  by_cases h : name = other <;> simp [h, under]

theorem under_cons_scalar (h : Flat ((name, v) :: t)) (hv : Scalar v) (other : String) :
    under ((name, v) :: t) other = under t other := by
  rw [under_cons]
  by_cases ho : name = other
  · rw [if_pos ho, entries_of_scalar hv, ← ho, h.under_eq_nil]
  · rw [if_neg ho]

theorem sectioned_cons_scalar (hv : Scalar v) : Sectioned ((name, v) :: t) ↔ Sectioned t := by
  constructor
  · intro h name' s mem
    exact h (List.mem_cons_of_mem _ mem)
  · intro h name' s mem
    rcases List.mem_cons.1 mem with same | mem
    · obtain ⟨rfl, rfl⟩ := Prod.mk.inj same
      exact hv.elim
    · exact h mem

theorem sectioned_cons_table {s : Table} : Sectioned ((name, .table s) :: t) ↔
    (∃ p ∈ Section.headed, p.name = name ∧ Admits p s) ∧ Sectioned t := by
  constructor
  · intro h
    exact ⟨h (List.mem_cons_self ..), fun mem => h (List.mem_cons_of_mem _ mem)⟩
  · rintro ⟨first, rest⟩ name' s' mem
    rcases List.mem_cons.1 mem with same | mem
    · obtain ⟨rfl, hs⟩ := Prod.mk.inj same
      cases hs
      exact first
    · exact rest mem

theorem steps_header (hp : p ∈ Section.headed) (hn : p.name = name) (rest : List (List Char)) :
    r.steps ((header name).toList :: rest) = Reading.steps { r with place := p } rest := by
  have found : Section.ofName? name.toList = some p := ofName?_eq_some_iff.2 ⟨hp, by rw [hn]⟩
  apply steps_cons_ok
  rw [step_header]
  simp [Reading.step, found]

theorem map_sectionRows {s : Table} (hs : Simple s) (rows : List String) :
    (sectionRows (name, .table s) ++ rows).map String.toList =
      (header name).toList :: (s.map (fun e => (Toml.entryInPlace e).toList) ++
        rows.map String.toList) := by
  rw [sectionRows, hs.ownLines]
  simp

/-- The sections set their settings and no others, if they are known and all of it fits. -/
theorem steps_sections (hf : Flat t) (hs : Sectioned t) :
    ∃ r', r.steps ((t.flatMap sectionRows).map String.toList) = .ok r' ∧
      ∀ s : Setting, s.value r'.config = if s.home = .root then s.value r.config
        else givenOr (under t s.home.name) s (s.value r.config) := by
  induction t generalizing r with
  | nil => exact ⟨r, rfl, by simp [givenOr, under]⟩
  | cons e t ih =>
    obtain ⟨name, v⟩ := e
    rw [List.flatMap_cons]
    rcases hf.entry (List.mem_cons_self ..) with scalar | ⟨es, rfl, simple⟩
    · obtain ⟨r', steps, values⟩ := ih (r := r) hf.of_cons ((sectioned_cons_scalar scalar).1 hs)
      rw [sectionRows_of_scalar scalar, List.nil_append]
      refine ⟨r', steps, ?_⟩
      intro s
      rw [values, under_cons_scalar hf scalar]
    · obtain ⟨⟨p, headed, named, admits⟩, rest⟩ := sectioned_cons_table.1 hs
      have admits' : Admits ({ r with place := p } : Reading).place es := admits
      obtain ⟨c, entries, assigned⟩ := steps_entries simple admits'
        ((t.flatMap sectionRows).map String.toList)
      obtain ⟨r', steps, values⟩ := ih (r := ⟨p, c⟩) hf.of_cons rest
      refine ⟨r', ?_, ?_⟩
      · rw [map_sectionRows simple, steps_header headed named, entries]
        exact steps
      · intro s
        have rooted : p ≠ .root := by
          rintro rfl
          exact absurd headed (by decide)
        rw [values, assigned, under_cons]
        by_cases root : s.home = .root
        · simp only [root, if_true, if_neg (Ne.symm rooted)]
        · by_cases here : s.home = p
          · subst named
            simp [here, rooted, givenOr, hf.under_eq_nil, Value.entries]
          · have other : name ≠ s.home.name := by
              rw [← named]
              exact fun same => here (name_injective same).symm
            simp only [root, here, other, if_false]

/-- Otherwise there is an error. -/
theorem steps_sections_error (hf : Flat t) (hs : ¬ Sectioned t) :
    ∃ e, r.steps ((t.flatMap sectionRows).map String.toList) = .error e := by
  induction t generalizing r with
  | nil => exact absurd (fun {name s} mem => by simp at mem) hs
  | cons e t ih =>
    obtain ⟨name, v⟩ := e
    rw [List.flatMap_cons]
    rcases hf.entry (List.mem_cons_self ..) with scalar | ⟨es, rfl, simple⟩
    · rw [sectionRows_of_scalar scalar, List.nil_append]
      exact ih hf.of_cons (mt (sectioned_cons_scalar scalar).2 hs)
    · rw [map_sectionRows simple]
      cases hp : Section.ofName? name.toList with
      | none =>
        refine ⟨.invalidSection, steps_cons_error ?_ _⟩
        rw [step_header]
        simp [Reading.step, hp]
      | some p =>
        obtain ⟨headed, spelled⟩ := ofName?_eq_some_iff.1 hp
        have named : p.name = name := String.toList_inj.1 spelled
        rw [steps_header headed named]
        by_cases admits : Admits p es
        · have admits' : Admits ({ r with place := p } : Reading).place es := admits
          obtain ⟨c, entries, -⟩ := steps_entries simple admits'
            ((t.flatMap sectionRows).map String.toList)
          rw [entries]
          apply ih hf.of_cons
          intro rest
          exact hs (sectioned_cons_table.2 ⟨⟨p, headed, named, admits⟩, rest⟩)
        · exact steps_entries_error (r := { r with place := p }) simple admits _

end Sections

section Checks
variable {t es : Table} {p : Section} {s : Setting} {v : Value}

theorem fits_of_checkRange {least most : Nat} (h : checkRange s least most es = [])
    (hv : es.get? s.key = some v) : ∃ n : Nat, v = .integer n ∧ n ≤ most := by
  rw [checkRange, hv] at h
  cases v with
  | integer i =>
    by_cases within : (least : Int) ≤ i ∧ i ≤ most
    · exact ⟨i.toNat, by rw [Int.toNat_of_nonneg (by omega)], by omega⟩
    · simp [within] at h
  | bool | float | datetime | string | array | table => simp at h

theorem fits_of_checkWord {words : List String} {c : Complaint} (h : checkWord s words c es = [])
    (hv : es.get? s.key = some v) : ∃ w ∈ words, v = .string w := by
  rw [checkWord, hv] at h
  cases v with
  | string w =>
    by_cases known : w ∈ words
    · exact ⟨w, known, rfl⟩
    · simp [known] at h
  | bool | integer | float | datetime | array | table => simp at h

/-- What the check of a section passes fits, but for a clock that is no whole number. -/
theorem fits_of_checkSection (h : checkSection es p = []) (home : s.home = p)
    (hv : es.get? s.key = some v) (clock : s = .pioClock → ∃ i, v = .integer i)
    (rooted : p ≠ .root) : s.Fits v := by
  subst home
  have range : ∀ {least most : Nat}, most ≤ numberLimit → checkRange s least most es = [] →
      ∃ n : Nat, v = .integer n ∧ n ≤ numberLimit := by
    intro least most bound checked
    obtain ⟨n, hn, le⟩ := fits_of_checkRange checked hv
    exact ⟨n, hn, by omega⟩
  cases s <;> simp only [Setting.home, checkSection, List.append_eq_nil_iff] at h
  case version => exact absurd rfl rooted
  case mode =>
    obtain ⟨w, known, rfl⟩ := fits_of_checkWord h.1.1.1 hv
    simp only [List.mem_cons, List.not_mem_nil, or_false] at known
    rcases known with rfl | rfl
    · exact ⟨.dma, rfl⟩
    · exact ⟨.fifo, rfl⟩
  case packing =>
    obtain ⟨w, known, rfl⟩ := fits_of_checkWord h.1.1.2 hv
    obtain rfl := List.mem_singleton.1 known
    exact ⟨.one, rfl, rfl⟩
  case busTurnTimeout => exact range (by decide) h.1.2
  case pollInterval => exact range (by decide) h.2
  case pioClock =>
    obtain ⟨i, rfl⟩ := clock rfl
    have required : i = requiredClock := by
      have checked := h.1.1.1
      rw [checkClock, hv] at checked
      by_contra other
      simp [other] at checked
    exact ⟨requiredClock, by rw [required], by decide⟩
  case rxSettle => exact range (by decide) h.1.1.2
  case txTimeout => exact range (by decide) h.1.2
  case rxTimeout => exact range (by decide) h.2
  case enabled =>
    have checked := h.1.1
    rw [checkSwitch, hv] at checked
    cases v with
    | bool b => exact ⟨b, rfl⟩
    | integer | float | datetime | string | array | table => simp at checked
  case interval => exact range (by decide) h.1.2
  case interFrame => exact range (by decide) h.2

theorem checkSection_of_complaints (hc : complaints t = []) (hp : p ∈ Section.headed)
    (ht : t.get? p.name = some (.table es)) : checkSection es p = [] := by
  have each := List.flatMap_eq_nil_iff.1 hc p hp
  rwa [ht] at each

end Checks

section Texts
variable {t es : Table} {key name : String} {s : Setting} {v : Value}

/-- What a table has for a setting. -/
def setting? (t : Table) (s : Setting) : Option Value :=
  if s.home = .root then t.get? s.key else (under t s.home.name).get? s.key

/-- The entries before the sections. -/
def own (t : Table) : Table := t.filter fun e => !e.2.isHeaded

theorem get?_eq_some_iff (h : (es.map (·.1)).Nodup) : es.get? key = some v ↔ (key, v) ∈ es := by
  induction es with
  | nil => simp
  | cons e es ih =>
    obtain ⟨other, w⟩ := e
    obtain ⟨fresh, rest⟩ := List.nodup_cons.1 h
    rw [get?_cons, List.mem_cons, ← ih rest]
    by_cases hk : other = key
    · subst hk
      have none := Config.get?_eq_none fresh
      simp [none, eq_comm]
    · simp [hk, Ne.symm hk]

theorem under_get? (h : (under t name).get? key = some v) :
    ∃ es : Table, t.get? name = some (.table es) ∧ es.get? key = some v := by
  cases ht : t.get? name with
  | none => simp [under, ht] at h
  | some w =>
    cases w with
    | table es =>
      refine ⟨es, rfl, ?_⟩
      simpa [under, ht, Value.entries] using h
    | bool | integer | float | datetime | string | array =>
      simp [under, ht, Value.entries] at h

theorem under_of_table (h : t.get? name = some (.table es)) : under t name = es := by
  simp [under, h, Value.entries]

/-- A key that is no section's stands before the sections. -/
theorem own_get? (hf : Flat t) (h : ∀ es, t.get? key ≠ some (.table es)) :
    (own t).get? key = t.get? key := by
  apply Option.ext
  intro v
  rw [own, get?_eq_some_iff hf.simple.keys, get?_eq_some_iff hf.keys, List.mem_filter]
  constructor
  · exact fun both => both.1
  · intro mem
    refine ⟨mem, ?_⟩
    rcases hf.entry mem with scalar | ⟨es, table, -⟩
    · simp [isHeaded_of_scalar scalar]
    · rw [← get?_eq_some_iff hf.keys] at mem
      exact absurd (table ▸ mem) (h es)

/-- A table that passes the check is loaded as it was written if there are no sections that the
reader does not know, no other version than 1, and no clock that is not a whole number. -/
structure Loadable (t : Table) : Prop where
  sections : ∀ {name es}, (name, Value.table es) ∈ t → ∃ p ∈ Section.headed, p.name = name
  version : ∀ {v}, setting? t .version = some v → v = .integer 1
  clock : ∀ {v}, setting? t .pioClock = some v → ∃ i, v = .integer i

theorem no_root_table (h : ∀ {name es}, (name, Value.table es) ∈ t →
    ∃ p ∈ Section.headed, p.name = name) (hf : Flat t) (home : s.home = .root) (es : Table) :
    t.get? s.key ≠ some (.table es) := by
  intro ht
  obtain ⟨p, headed, named⟩ := h ((get?_eq_some_iff hf.keys).1 ht)
  have version : s = .version := by cases s <;> first | rfl | exact absurd home (by decide)
  subst version
  simp only [Section.headed, List.mem_cons, List.not_mem_nil, or_false] at headed
  rcases headed with rfl | rfl | rfl <;> exact absurd named (by decide)

theorem Sectioned.known (hs : Sectioned t) (mem : (name, Value.table es) ∈ t) :
    ∃ p ∈ Section.headed, p.name = name := by
  obtain ⟨p, headed, named, -⟩ := hs mem
  exact ⟨p, headed, named⟩

/-- The text of a table whose entries fit and whose sections are known has what the table has. -/
theorem Flat.steps_written (hf : Flat t) (ha : Admits .root (own t)) (hs : Sectioned t) :
    ∃ r, Reading.steps {} (Text.lines (written t)) = .ok r ∧
      ∀ s : Setting, s.value r.config = (setting? t s).getD (s.value .initial) := by
  obtain ⟨c, entries, assigned⟩ := steps_entries (r := {}) hf.simple ha
    ((t.flatMap sectionRows).map String.toList)
  obtain ⟨r, steps, values⟩ := steps_sections (r := ⟨.root, c⟩) hf hs
  refine ⟨r, ?_, ?_⟩
  · rw [hf.lines_written, rows, List.map_append, Toml.ownLines, List.map_map]
    exact entries.trans steps
  · intro s
    rw [values, assigned, setting?]
    by_cases home : s.home = .root
    · have whole := own_get? hf (no_root_table hs.known hf home)
      simp only [home, if_true, givenOr]
      rw [← whole]
      rfl
    · simp only [home, if_false, givenOr]

theorem Flat.parse_error (hf : Flat t) (h : ¬ (Admits .root (own t) ∧ Sectioned t)) :
    ∃ e, parse (written t) = .error e := by
  have lines : Text.lines (written t) =
      (own t).map (fun e => (Toml.entryInPlace e).toList) ++
        (t.flatMap sectionRows).map String.toList := by
    rw [hf.lines_written, rows, List.map_append, Toml.ownLines, List.map_map]
    rfl
  obtain ⟨e, failed⟩ : ∃ e, Reading.steps {} (Text.lines (written t)) = .error e := by
    rw [lines]
    by_cases ha : Admits .root (own t)
    · obtain ⟨c, entries, -⟩ := steps_entries (r := {}) hf.simple ha
        ((t.flatMap sectionRows).map String.toList)
      obtain ⟨e, failed⟩ := steps_sections_error (r := ⟨.root, c⟩) hf fun hs => h ⟨ha, hs⟩
      exact ⟨e, entries.trans failed⟩
    · exact steps_entries_error (r := {}) hf.simple ha _
  refine ⟨e, ?_⟩
  rw [parse, failed]

theorem Loadable.admits (hl : Loadable t) (hf : Flat t) : Admits .root (own t) := by
  intro s v home hv
  have version : s = .version := by cases s <;> first | rfl | exact absurd home (by decide)
  subst version
  rw [own_get? hf (no_root_table hl.sections hf home)] at hv
  exact ⟨1, hl.version hv, by decide⟩

theorem Loadable.sectioned (hl : Loadable t) (hf : Flat t) (hc : complaints t = []) :
    Sectioned t := by
  intro name es mem
  obtain ⟨p, headed, rfl⟩ := hl.sections mem
  have ht := (get?_eq_some_iff hf.keys).2 mem
  have rooted : p ≠ .root := by
    rintro rfl
    exact absurd headed (by decide)
  refine ⟨p, headed, rfl, ?_⟩
  intro s v home hv
  refine fits_of_checkSection (checkSection_of_complaints hc headed ht) home hv ?_ rooted
  rintro rfl
  apply hl.clock
  rw [setting?, if_neg (by decide), home, under_of_table ht, hv]

/-- The entries fit and the sections are known. -/
theorem loadable_of_sectioned (hf : Flat t) (hs : Sectioned t)
    (hv : ∀ {v}, setting? t .version = some v → v = .integer 1) : Loadable t where
  sections := hs.known
  version := hv
  clock := by
    intro v hv
    rw [setting?, if_neg (by decide)] at hv
    obtain ⟨es, ht, hv⟩ := under_get? hv
    obtain ⟨p, -, named, admits⟩ := hs ((get?_eq_some_iff hf.keys).1 ht)
    obtain rfl : p = .timing := name_injective named
    obtain ⟨n, rfl, -⟩ : Setting.Fits v .pioClock := admits rfl hv
    exact ⟨n, rfl⟩

/-- A table that passes the check is loaded as it was written if it is loadable, and cannot be
loaded at all if it is not. -/
theorem checked_loads_iff (hf : Flat t) (hc : complaints t = []) :
    (Loadable t → ∃ c, parse (written t) = .ok c ∧
      ∀ s : Setting, s.value c = (setting? t s).getD (s.value .initial)) ∧
    (¬ Loadable t → ∃ e, parse (written t) = .error e ∧ load (written t) = .initial) := by
  have finished : ∀ r : Reading, Reading.steps {} (Text.lines (written t)) = .ok r →
      parse (written t) = r.finish := by
    intro r steps
    rw [parse, steps]
  constructor
  · intro hl
    obtain ⟨r, steps, values⟩ := hf.steps_written (hl.admits hf) (hl.sectioned hf hc)
    refine ⟨r.config, ?_, values⟩
    have version : Value.integer r.config.version = .integer 1 := by
      have given := values .version
      cases hv : setting? t .version with
      | none =>
        rw [hv] at given
        exact given
      | some v =>
        rw [hv] at given
        exact given.trans (hl.version hv)
    have one : r.config.version = BusConfig.supportedVersion :=
      Int.natCast_inj.1 (Value.integer.inj version)
    rw [finished r steps, Reading.finish, if_pos one]
  · intro hl
    obtain ⟨e, failed⟩ : ∃ e, parse (written t) = .error e := by
      by_cases fits : Admits .root (own t) ∧ Sectioned t
      · obtain ⟨r, steps, values⟩ := hf.steps_written fits.1 fits.2
        refine ⟨.unsupportedVersion, ?_⟩
        rw [finished r steps, Reading.finish, if_neg]
        intro one
        apply hl
        apply loadable_of_sectioned hf fits.2
        intro v hv
        have given := values .version
        rw [hv] at given
        rw [← show _ = v from given, Setting.value, one]
        rfl
      · exact hf.parse_error fits
    refine ⟨e, failed, ?_⟩
    rw [load, failed]

/-- A table that sets a mode and a switch, with a note that no setting has. -/
theorem checked_loads_iff_fifo :
    let t : Table := [("version", .integer 1),
      ("transceiver", .table [("mode", .string "fifo"), ("a note", .string "kept apart")]),
      ("loopback", .table [("enabled", .bool false)])]
    Flat t ∧ complaints t = [] ∧ Loadable t ∧
      ∃ c, parse (written t) = .ok c ∧
        ∀ s : Setting, s.value c = (setting? t s).getD (s.value .initial) := by
  intro t
  have flat : Flat t := by
    constructor
    · decide
    · intro e he
      simp only [t, List.mem_cons, List.not_mem_nil, or_false] at he
      rcases he with rfl | rfl | rfl
      · exact .inl trivial
      · refine .inr ⟨_, rfl, by decide, ?_⟩
        intro e he
        simp only [List.mem_cons, List.not_mem_nil, or_false] at he
        rcases he with rfl | rfl
        · exact forall_mem_of_all (p := Plain) (by decide)
        · exact forall_mem_of_all (p := Plain) (by decide)
      · refine .inr ⟨_, rfl, by decide, ?_⟩
        intro e he
        obtain rfl := List.mem_singleton.1 he
        exact trivial
  have passed : complaints t = [] := by decide
  have loadable : Loadable t := by
    constructor
    · intro name es mem
      simp only [t, List.mem_cons, Prod.mk.injEq, List.not_mem_nil, or_false] at mem
      rcases mem with ⟨-, table⟩ | ⟨rfl, -⟩ | ⟨rfl, -⟩
      · exact absurd table (by simp)
      · exact ⟨.transceiver, by decide, rfl⟩
      · exact ⟨.loopback, by decide, rfl⟩
    · intro v hv
      exact (Option.some_inj.1 hv).symm
    · intro v hv
      exact absurd hv (by simp [setting?, Setting.home, under, t, Table.get?, Section.name])
  exact ⟨flat, passed, loadable, (checked_loads_iff flat passed).1 loadable⟩

theorem simple_singleton (h : Scalar v) (key : String) : Simple [(key, v)] where
  keys := by simp
  scalar := by
    intro e he
    obtain rfl := List.mem_singleton.1 he
    exact h

theorem flat_section (h : Simple es) (name : String) : Flat [(name, .table es)] where
  keys := by simp
  entry := by
    intro e he
    obtain rfl := List.mem_singleton.1 he
    exact .inr ⟨es, rfl, h⟩

theorem flat_entry (h : Scalar v) (key : String) : Flat [(key, v)] where
  keys := by simp
  entry := by
    intro e he
    obtain rfl := List.mem_singleton.1 he
    exact .inl h

/-- Three tables that pass the check cannot be loaded: a clock that is a string, a section that no
setting has, and a version other than 1. -/
theorem passed_but_not_loaded :
    (let t : Table := [("timing", .table [("pio_clock_hz", .string "4000000")])];
      Flat t ∧ complaints t = [] ∧ parse (written t) = .error .invalidValue) ∧
    (let t : Table := [("spare", .table [("level", .integer 3)])];
      Flat t ∧ complaints t = [] ∧ parse (written t) = .error .invalidSection) ∧
    (let t : Table := [("version", .integer 2)];
      Flat t ∧ complaints t = [] ∧ parse (written t) = .error .unsupportedVersion) := by
  have digits : Scalar (.string "4000000") := forall_mem_of_all (p := Plain) (by decide)
  have number : ∀ i, Scalar (.integer i) := fun _ => trivial
  refine ⟨⟨?_, rfl, rfl⟩, ⟨?_, rfl, rfl⟩, ⟨?_, rfl, rfl⟩⟩
  · exact flat_section (simple_singleton digits _) _
  · exact flat_section (simple_singleton (number 3) _) _
  · exact flat_entry (number 2) _

end Texts

end Joybus.Config
