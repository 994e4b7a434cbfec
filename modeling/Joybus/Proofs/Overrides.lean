import Joybus.Proofs.Layout
import Joybus.Proofs.Loading

/-! Settings written out in any order and layout, and the configuration they are read back as. -/
namespace Joybus.Config

open Toml (Value)

section Spellings
variable {n : Nat} {v : Value} {text : List Char} {s : Setting}

/-- Decimal digits of a number, with underscores among them. There may be zeros in front, as many as
leave room for ten digits in the 24 that are read. -/
def Numeral (n : Nat) (text : List Char) : Prop :=
  ∃ zeros ≤ 14, text.filter (· ≠ '_') = List.replicate zeros '0' ++ Nat.toDigits 10 n

/-- The ways to write a value: words with quotes or without. -/
inductive Spells : Value → List Char → Prop
  | bool (b : Bool) : Spells (.bool b) (toString b).toList
  | integer {n : Nat} {text : List Char} : Numeral n text → Spells (.integer n) text
  | bare (w : String) : Spells (.string w) w.toList
  | quoted (w : String) : Spells (.string w) ('"' :: w.toList ++ ['"'])

theorem isDigit_of_mem_digits {zeros : Nat} {c : Char}
    (hc : c ∈ List.replicate zeros '0' ++ Nat.toDigits 10 n) : c.isDigit = true := by
  rcases List.mem_append.1 hc with hc | hc
  · obtain rfl := (List.mem_replicate.1 hc).2
    rfl
  · exact Nat.isDigit_of_mem_toDigits (by decide) (by decide) hc

/-- A numeral denotes its number, if that has ten digits at most. -/
theorem Numeral.denotes (h : Numeral n text) (hn : n < 10 ^ 10) : Denotes text n := by
  obtain ⟨zeros, few, clean⟩ := h
  have ten : (Nat.toDigits 10 n).length ≤ 10 := by
    rw [Nat.length_toDigits_le_iff (by decide) (by decide)]
    omega
  have value : Nat.ofDigitChars 10 (List.replicate zeros '0' ++ Nat.toDigits 10 n) 0 = n := by
    rw [Nat.ofDigitChars_append, Nat.ofDigitChars_replicate_zero, Nat.mul_zero,
      Nat.ofDigitChars_toDigits (by decide) (by decide)]
  refine (denotes_iff_of_digits clean (fun c hc => isDigit_of_mem_digits hc)
    (by simp [Nat.toDigits_ne_nil])).2 ⟨?_, value⟩
  rw [List.length_append, List.length_replicate]
  omega

theorem unquote_quoted (cs : List Char) : unquote ('"' :: cs ++ ['"']) = cs := by
  simp [unquote]

/-- A word of the settings is the same with quotes and without. -/
theorem Spells.unquote {w : String} (h : Spells (.string w) text)
    (hw : w ∈ ["dma", "fifo", "one"]) : unquote text = w.toList := by
  cases h with
  | bare =>
    simp only [List.mem_cons, List.not_mem_nil, or_false] at hw
    rcases hw with rfl | rfl | rfl <;> rfl
  | quoted => exact unquote_quoted _

/-- A setting reads the values that fit it from any of their spellings. -/
theorem read?_spelled (h : Spells v text) (fits : s.Fits v) : s.read? text = some v := by
  have number : ∀ {w n : Nat}, 4 ≤ w → n < 10 ^ 10 → n < 2 ^ w → v = .integer n →
      (number? w text).map (fun n : Nat => Value.integer n) = some v := by
    rintro w n hw ten hn rfl
    generalize hv : Value.integer n = v at h
    cases h with
    | integer numeral =>
      obtain rfl := Int.natCast_inj.1 (Value.integer.inj hv)
      rw [(number?_eq_some_iff hw).2 ⟨numeral.denotes ten, hn⟩, Option.map_some]
    | bool | bare | quoted => exact Value.noConfusion hv
  cases s
  case version =>
    obtain ⟨n, hv, byte⟩ := fits
    exact number (by decide) (by omega) (by omega) hv
  case mode =>
    obtain ⟨m, rfl⟩ := fits
    have word := h.unquote (by cases m <;> simp [modeWord])
    cases m <;> simp [Setting.read?, readMode, word, modeWord]
  case packing =>
    obtain ⟨p, rfl, rfl⟩ := fits
    have word := h.unquote (by simp [packingWord])
    simp [Setting.read?, readPacking, word, packingWord]
  case enabled =>
    obtain ⟨b, rfl⟩ := fits
    cases h
    cases b <;> rfl
  all_goals
    obtain ⟨n, hv, small⟩ := fits
    rw [numberLimit] at small
    exact number (by decide) (by omega) (by omega) hv

/-- A text with nothing to trim and no remark in it, whose quotes are closed. -/
structure Contained (text : List Char) : Prop where
  tight : Tight text
  hash : '#' ∉ text
  quotes : text.count '"' % 2 = 0

theorem contained_of_visible (hn : text ≠ []) (h : ∀ c ∈ text, Visible c ∧ c ≠ '#' ∧ c ≠ '"') :
    Contained text where
  tight := tight_of_visible hn fun c hc => (h c hc).1
  hash hc := (h _ hc).2.1 rfl
  quotes := by rw [List.count_eq_zero_of_not_mem fun hc => (h _ hc).2.2 rfl]

theorem Numeral.contained (h : Numeral n text) : Contained text := by
  obtain ⟨zeros, -, clean⟩ := h
  apply contained_of_visible
  · rintro rfl
    have none := clean.symm
    simp [Nat.toDigits_ne_nil] at none
  · intro c hc
    by_cases underscore : c = '_'
    · subst underscore
      decide
    · have digit : c.isDigit = true := by
        have kept : c ∈ text.filter (· ≠ '_') := by simp [hc, underscore]
        exact isDigit_of_mem_digits (clean ▸ kept)
      refine ⟨visible_of_isDigit digit, ?_, ?_⟩ <;> rintro rfl <;> exact absurd digit (by decide)

/-- However it is spelled, a value can have a remark behind it. -/
theorem Spells.contained (h : Spells v text) (fits : s.Fits v) : Contained text := by
  have words : ∀ {w : String}, v = .string w → w ∈ ["dma", "fifo", "one"] := by
    rintro w rfl
    cases s
    case mode =>
      obtain ⟨m, hm⟩ := fits
      obtain rfl := Value.string.inj hm
      cases m <;> simp [modeWord]
    case packing =>
      obtain ⟨p, hp, rfl⟩ := fits
      obtain rfl := Value.string.inj hp
      simp [packingWord]
    case enabled =>
      obtain ⟨b, hb⟩ := fits
      exact Value.noConfusion hb
    all_goals
      obtain ⟨n, hn, -⟩ := fits
      exact Value.noConfusion hn
  cases h with
  | bool b =>
    cases b <;> exact contained_of_visible (by decide) (forall_mem_of_all (by decide))
  | integer numeral => exact numeral.contained
  | bare w =>
    have known := words rfl
    simp only [List.mem_cons, List.not_mem_nil, or_false] at known
    rcases known with rfl | rfl | rfl <;>
      exact contained_of_visible (by decide) (forall_mem_of_all (by decide))
  | quoted w =>
    have known := words rfl
    have tight : Tight ('"' :: w.toList ++ ['"']) := tight_between (by decide) (by decide) _
    simp only [List.mem_cons, List.not_mem_nil, or_false] at known
    rcases known with rfl | rfl | rfl <;> exact ⟨tight, by decide, by decide⟩

end Spellings

section Rows
variable {key : String} {indent left right text gap tail : List Char}

/-- What may end a line: nothing more, or a remark. -/
def Remark (tail : List Char) : Prop := tail = [] ∨ ∃ words, tail = '#' :: words

/-- A pair is read however it is laid out, and without its remark. -/
theorem read_row (hk : Bare key) (hi : Blank indent) (hl : Blank left) (hr : Blank right)
    (hc : Contained text) (hg : Blank gap) (tailed : Remark tail) :
    Line.read (indent ++ key.toList ++ left ++ '=' :: right ++ text ++ gap ++ tail) =
      .pair key.toList text := by
  have core : Tight (key.toList ++ left ++ '=' :: (right ++ text)) := by
    simpa using hk.tight.append (left ++ '=' :: right) hc.tight
  obtain rfl | ⟨words, rfl⟩ := tailed
  · have trimmed : Text.trim (right ++ text) = text := by
      simpa using trim_pad right [] hr blank_nil hc.tight
    rw [← read_pair hk hl core (by rw [trimmed, uncomment_of_not_mem hc.tight hc.hash])
      hc.tight.ne_nil]
    apply read_congr
    rw [trim_of_tight core, ← trim_pad indent gap hi hg core]
    simp
  · obtain ⟨shown, behind, rfl, hb, tight⟩ := remark_cases words
    have whole : Tight (key.toList ++ left ++ '=' :: (right ++ text ++ gap ++ '#' :: shown)) := by
      simpa using core.append gap tight
    have trimmed :
        Text.trim (right ++ text ++ gap ++ '#' :: shown) = text ++ gap ++ '#' :: shown := by
      simpa using trim_pad right [] hr blank_nil (hc.tight.append gap tight)
    rw [← read_pair hk hl whole
      (by rw [trimmed, uncomment_remark hc.tight hc.hash hg, if_pos hc.quotes]) hc.tight.ne_nil]
    apply read_congr
    rw [trim_of_tight whole, ← trim_pad indent behind hi hb whole]
    simp

end Rows

/-- A setting with its value, and the way both stand on a line. -/
structure Assignment where
  setting : Setting
  value : Value
  text : List Char
  indent : List Char := []
  left : List Char := [' ']
  right : List Char := [' ']
  gap : List Char := []
  tail : List Char := []

namespace Assignment

def row (a : Assignment) : List Char :=
  a.indent ++ a.setting.key.toList ++ a.left ++ '=' :: a.right ++ a.text ++ a.gap ++ a.tail

/-- The value fits and is spelled out, and all around it on the line is white space or a remark. -/
structure Sound (a : Assignment) : Prop where
  fits : a.setting.Fits a.value
  spelled : Spells a.value a.text
  indent : Blank a.indent
  left : Blank a.left
  right : Blank a.right
  gap : Blank a.gap
  tail : Remark a.tail
  inline : '\n' ∉ a.row

end Assignment

/-- A header and the assignments under it. -/
structure Block where
  place : Section
  entries : List Assignment
  indent : List Char := []
  trail : List Char := []

namespace Block

def header (b : Block) : List Char := b.indent ++ '[' :: b.place.name.toList ++ [']'] ++ b.trail

def rows (b : Block) : List (List Char) := b.header :: b.entries.map Assignment.row

/-- The section has a header, and its settings stand under it. -/
structure Sound (b : Block) : Prop where
  headed : b.place ∈ Section.headed
  indent : Blank b.indent
  trail : Blank b.trail
  inline : '\n' ∉ b.header
  entry : ∀ {a}, a ∈ b.entries → a.Sound ∧ a.setting.home = b.place

end Block

/-- A configuration as it is written out: the version if it is given, then the sections. -/
structure Script where
  version : Option Assignment
  blocks : List Block

namespace Script

def assignments (d : Script) : List Assignment := d.version.toList ++ d.blocks.flatMap Block.entries

def rows (d : Script) : List (List Char) :=
  d.version.toList.map Assignment.row ++ d.blocks.flatMap Block.rows

/-- The rows one below the other. -/
def text (d : Script) : List Char := ['\n'].intercalate d.rows

/-- No setting is given twice, and the version is the one there is. -/
structure Sound (d : Script) : Prop where
  version : ∀ {a}, a ∈ d.version → a.Sound ∧ a.setting = .version ∧ a.value = .integer 1
  block : ∀ {b}, b ∈ d.blocks → b.Sound
  once : (d.assignments.map Assignment.setting).Nodup

end Script

section Steps
variable {r : Reading} {a : Assignment} {as bs : List Assignment} {b : Block} {blocks : List Block}
  {s : Setting} {v : Value}

/-- What a setting has after some assignments: the last one counts. -/
def overridden (as : List Assignment) (s : Setting) (v : Value) : Value :=
  as.foldl (fun v a => if s = a.setting then a.value else v) v

theorem overridden_append (as bs : List Assignment) (s : Setting) (v : Value) :
    overridden (as ++ bs) s v = overridden bs s (overridden as s v) := by
  rw [overridden, List.foldl_append, ← overridden, ← overridden]

theorem overridden_of_forall_ne (h : ∀ a ∈ as, a.setting ≠ s) : overridden as s v = v := by
  refine List.foldlRecOn (motive := (· = v)) as _ rfl ?_
  rintro _ rfl a ha
  exact if_neg fun same => h a ha same.symm

/-- If no setting is given twice, each has the value it is given. -/
theorem overridden_of_mem (h : (as.map Assignment.setting).Nodup) (ha : a ∈ as) (v : Value) :
    overridden as a.setting v = a.value := by
  obtain ⟨before, after, rfl⟩ := List.append_of_mem ha
  have later : ∀ a' ∈ after, a'.setting ≠ a.setting := by
    rw [List.map_append, List.map_cons] at h
    have rest := (List.nodup_cons.1 (List.nodup_append.1 h).2.1).1
    intro a' ha' same
    exact rest (List.mem_map.2 ⟨a', ha', same⟩)
  rw [overridden_append, overridden, List.foldl_cons, if_pos rfl, ← overridden,
    overridden_of_forall_ne later]

theorem step_row (h : a.Sound) (home : a.setting.home = r.place) :
    ∃ c, r.step (.read a.row) = .ok { r with config := c } ∧
      ∀ s : Setting, s.value c = overridden [a] s (s.value r.config) := by
  obtain ⟨c, assigned, values⟩ := assign_of_read (read?_spelled h.spelled h.fits) r.config
  refine ⟨c, ?_, values⟩
  have found : Setting.find? r.place a.setting.key.toList = some a.setting :=
    find?_eq_some_iff.2 ⟨home, rfl⟩
  rw [Assignment.row, read_row (bare_key _) h.indent h.left h.right (h.spelled.contained h.fits)
    h.gap h.tail]
  simp [Reading.step, found, assigned]

/-- Assignments in the section of their settings override these and nothing else. -/
theorem steps_assignments (h : ∀ a ∈ as, a.Sound ∧ a.setting.home = r.place)
    (rest : List (List Char)) :
    ∃ c, r.steps (as.map Assignment.row ++ rest) = Reading.steps { r with config := c } rest ∧
      ∀ s : Setting, s.value c = overridden as s (s.value r.config) := by
  induction as generalizing r with
  | nil => exact ⟨r.config, rfl, fun _ => rfl⟩
  | cons a as ih =>
    obtain ⟨sound, home⟩ := h a (List.mem_cons_self ..)
    obtain ⟨c, step, first⟩ := step_row sound home
    obtain ⟨c', steps, values⟩ := ih (r := { r with config := c }) fun a' ha' =>
      h a' (List.mem_cons_of_mem _ ha')
    refine ⟨c', ?_, ?_⟩
    · rw [List.map_cons, List.cons_append, steps_cons_ok step, steps]
    · intro s
      rw [values, first]
      rfl

theorem step_block_header (h : b.Sound) (r : Reading) :
    r.step (.read b.header) = .ok { r with place := b.place } := by
  have tight : Tight ('[' :: b.place.name.toList ++ [']']) :=
    tight_between (by decide) (by decide) _
  have read : Line.read b.header = .header b.place.name.toList := by
    rw [← read_header (bare_name h.headed).tight]
    apply read_congr
    rw [trim_of_tight tight, ← trim_pad b.indent b.trail h.indent h.trail tight]
    simp [Block.header]
  have found : Section.ofName? b.place.name.toList = some b.place :=
    ofName?_eq_some_iff.2 ⟨h.headed, rfl⟩
  rw [read]
  simp [Reading.step, found]

theorem steps_blocks (h : ∀ b ∈ blocks, b.Sound) :
    ∃ r', r.steps (blocks.flatMap Block.rows) = .ok r' ∧
      ∀ s : Setting, s.value r'.config =
        overridden (blocks.flatMap Block.entries) s (s.value r.config) := by
  induction blocks generalizing r with
  | nil => exact ⟨r, rfl, fun _ => rfl⟩
  | cons b blocks ih =>
    have sound := h b (List.mem_cons_self ..)
    obtain ⟨c, steps, values⟩ := steps_assignments (r := { r with place := b.place })
      (fun a ha => sound.entry ha) (blocks.flatMap Block.rows)
    obtain ⟨r', steps', values'⟩ := ih (r := ⟨b.place, c⟩) fun b' hb' =>
      h b' (List.mem_cons_of_mem _ hb')
    refine ⟨r', ?_, ?_⟩
    · rw [List.flatMap_cons, Block.rows, List.cons_append,
        steps_cons_ok (step_block_header sound r), steps]
      exact steps'
    · intro s
      rw [List.flatMap_cons, overridden_append, values', values]

theorem Script.Sound.steps {d : Script} (h : d.Sound) :
    ∃ r, Reading.steps {} d.rows = .ok r ∧
      ∀ s : Setting, s.value r.config = overridden d.assignments s (s.value .initial) := by
  have own : ∀ a ∈ d.version.toList, a.Sound ∧ a.setting.home = .root := by
    intro a ha
    obtain ⟨sound, version, -⟩ := h.version (Option.mem_toList.1 ha)
    exact ⟨sound, by rw [version]; rfl⟩
  obtain ⟨c, steps, values⟩ := steps_assignments (r := {}) own (d.blocks.flatMap Block.rows)
  obtain ⟨r, steps', values'⟩ := steps_blocks (r := ⟨.root, c⟩) fun b hb => h.block hb
  refine ⟨r, ?_, ?_⟩
  · rw [Script.rows, steps]
    exact steps'
  · intro s
    rw [values', values, Script.assignments, overridden_append]

end Steps

section Texts
variable {r : Reading} {rows : List (List Char)} {ending : List Char} {d : Script}

/-- Rows that are joined by line feeds are read one by one, whether the last one is ended or not. -/
theorem steps_joined (h : ∀ row ∈ rows, '\n' ∉ row) (he : ending = [] ∨ ending = ['\n']) :
    r.steps (Text.lines (['\n'].intercalate rows ++ ending)) = r.steps rows := by
  have last : Follows ending [] := by
    rcases he with rfl | rfl
    · exact .inr (.inr ⟨rfl, rfl⟩)
    · exact .inl rfl
  -- only the last row may have nothing behind it; the others are followed by a line feed
  induction rows generalizing r with
  | nil => rcases he with rfl | rfl <;> rfl
  | cons row rows ih =>
    have clear := h row (List.mem_cons_self ..)
    cases rows with
    | nil =>
      have alone : ['\n'].intercalate [row] = row := by simp [List.intercalate]
      rw [alone]
      exact last.steps clear
    | cons row' rows =>
      have joined : ['\n'].intercalate (row :: row' :: rows) ++ ending =
          row ++ '\n' :: (['\n'].intercalate (row' :: rows) ++ ending) := by
        simp [List.intercalate]
      have tail := fun r => ih (r := r) fun row hr => h row (List.mem_cons_of_mem _ hr)
      rw [joined, Follows.steps clear (.inl rfl), Reading.steps, Reading.steps]
      cases r.step (.read row) with
      | ok next => exact tail next
      | error e => rfl

theorem Script.Sound.inline (h : d.Sound) : ∀ row ∈ d.rows, '\n' ∉ row := by
  intro row hr
  rcases List.mem_append.1 hr with own | under
  · obtain ⟨a, ha, rfl⟩ := List.mem_map.1 own
    exact (h.version (Option.mem_toList.1 ha)).1.inline
  · obtain ⟨b, hb, hr⟩ := List.mem_flatMap.1 under
    have sound := h.block hb
    rcases List.mem_cons.1 hr with rfl | hr
    · exact sound.inline
    · obtain ⟨a, ha, rfl⟩ := List.mem_map.1 hr
      exact (sound.entry ha).1.inline

/-- Only the version's own line sets the version. -/
theorem Script.Sound.version_one (h : d.Sound) :
    overridden d.assignments .version (Setting.value .initial .version) = .integer 1 := by
  have one : ∀ a ∈ d.assignments, a.setting = .version → a.value = .integer 1 := by
    intro a ha version
    rcases List.mem_append.1 ha with own | under
    · exact (h.version (Option.mem_toList.1 own)).2.2
    · obtain ⟨b, hb, ha⟩ := List.mem_flatMap.1 under
      have sound := h.block hb
      have rooted := (sound.entry ha).2.symm
      have headed := sound.headed
      rw [rooted, version] at headed
      exact absurd headed (by decide)
  by_cases given : ∃ a ∈ d.assignments, a.setting = .version
  · obtain ⟨a, ha, version⟩ := given
    have value := overridden_of_mem h.once ha (Setting.value .initial .version)
    rw [version] at value
    rw [value, one a ha version]
  · exact overridden_of_forall_ne fun a ha version => given ⟨a, ha, version⟩

/-- A configuration that is written out in any order and layout is read back: the settings that are
given have the values they are given, and the others have those they have at first. -/
theorem script_read_back (h : d.Sound) (he : ending = [] ∨ ending = ['\n']) :
    ∃ c, parse (d.text ++ ending) = .ok c ∧
      (∀ a ∈ d.assignments, a.setting.value c = a.value) ∧
      ∀ s : Setting, (∀ a ∈ d.assignments, a.setting ≠ s) → s.value c = s.value .initial := by
  obtain ⟨r, steps, values⟩ := h.steps
  have version : Value.integer r.config.version = .integer 1 :=
    (values .version).trans h.version_one
  have one : r.config.version = BusConfig.supportedVersion :=
    Int.natCast_inj.1 (Value.integer.inj version)
  refine ⟨r.config, ?_, ?_, ?_⟩
  · rw [parse, Script.text, steps_joined h.inline he, steps]
    exact if_pos one
  · intro a ha
    rw [values, overridden_of_mem h.once ha]
  · intro s hs
    rw [values, overridden_of_forall_ne hs]

/-- The version, and two sections with settings in another order than they are listed in. -/
theorem script_read_back_mixed :
    let version : Assignment :=
      { setting := .version, value := .integer 1, text := ['1'], gap := [' '],
        tail := "# the only one".toList }
    let interval : Assignment :=
      { setting := .interval, value := .integer 1000, text := "1_000".toList, indent := ['\t'],
        left := [], right := [], gap := [' '], tail := "# a \"second\"".toList }
    let enabled : Assignment :=
      { setting := .enabled, value := .bool false, text := "false".toList }
    let mode : Assignment :=
      { setting := .mode, value := .string "fifo", text := "\"fifo\"".toList,
        tail := "#by hand".toList }
    let d : Script :=
      { version := some version,
        blocks := [{ place := .loopback, entries := [interval, enabled] },
          { place := .transceiver, entries := [mode] }] }
    d.Sound ∧
      d.text = ("version = 1 # the only one\n[loopback]\n" ++
        "\tinterval_ms=1_000 # a \"second\"\nenabled = false\n" ++
        "[transceiver]\nmode = \"fifo\"#by hand").toList ∧
      ∃ c, parse (d.text ++ ['\n']) = .ok c ∧
        (∀ a ∈ d.assignments, a.setting.value c = a.value) ∧
        ∀ s : Setting, (∀ a ∈ d.assignments, a.setting ≠ s) → s.value c = s.value .initial := by
  intro version interval enabled mode d
  have blank : ∀ {cs : List Char}, cs.all Text.isBlank = true → Blank cs := List.all_eq_true.1
  have version_sound : version.Sound :=
    ⟨⟨1, rfl, by decide⟩, .integer ⟨0, by decide, by decide⟩, blank rfl, blank rfl, blank rfl,
      blank rfl, .inr ⟨_, rfl⟩, by decide⟩
  have interval_sound : interval.Sound :=
    ⟨⟨1000, rfl, by decide⟩, .integer ⟨0, by decide, by decide⟩, blank rfl, blank rfl, blank rfl,
      blank rfl, .inr ⟨_, rfl⟩, by decide⟩
  have enabled_sound : enabled.Sound :=
    ⟨⟨false, rfl⟩, .bool false, blank rfl, blank rfl, blank rfl, blank rfl, .inl rfl, by decide⟩
  have mode_sound : mode.Sound :=
    ⟨⟨.fifo, rfl⟩, .quoted "fifo", blank rfl, blank rfl, blank rfl, blank rfl, .inr ⟨_, rfl⟩,
      by decide⟩
  have sound : d.Sound := by
    constructor
    · intro a ha
      obtain rfl := Option.mem_some_iff.1 ha
      exact ⟨version_sound, rfl, rfl⟩
    · intro b hb
      simp only [d, List.mem_cons, List.not_mem_nil, or_false] at hb
      rcases hb with rfl | rfl
      · refine ⟨by decide, blank rfl, blank rfl, by decide, ?_⟩
        intro a ha
        simp only [List.mem_cons, List.not_mem_nil, or_false] at ha
        rcases ha with rfl | rfl
        · exact ⟨interval_sound, rfl⟩
        · exact ⟨enabled_sound, rfl⟩
      · refine ⟨by decide, blank rfl, blank rfl, by decide, ?_⟩
        intro a ha
        obtain rfl := List.mem_singleton.1 ha
        exact ⟨mode_sound, rfl⟩
    · decide
  exact ⟨sound, by decide +kernel, script_read_back sound (.inr rfl)⟩

end Texts

end Joybus.Config
