import Joybus.Proofs.Remarks
import Mathlib.Data.List.DropRight
import Mathlib.Logic.Relation

/-! Edits of a configuration text that do not change what it says: lines that say nothing where they
stand, white space around a line, and another way to end lines. -/
namespace Joybus.Config

section Padding
variable {c : Char} {cs left right : List Char}

theorem dropWhile_append_stop {p : Char → Bool} (hc : p c = false) (left right : List Char) :
    (left ++ c :: right).dropWhile p = left.dropWhile p ++ c :: right := by
  rw [List.dropWhile_append, List.dropWhile_cons_of_neg (by simp [hc])]
  split
  · next empty => rw [List.isEmpty_iff.1 empty, List.nil_append]
  · rfl

/-- A text with something in it that is no blank is trimmed on either side of it. -/
theorem trim_around (hc : Text.isBlank c = false) (left right : List Char) :
    Text.trim (left ++ c :: right) = left.dropWhile Text.isBlank ++
      c :: (right.reverse.dropWhile Text.isBlank).reverse := by
  rw [Text.trim, dropWhile_append_stop hc, List.reverse_append, List.reverse_cons,
    List.append_assoc, List.singleton_append, dropWhile_append_stop hc]
  simp

theorem trim_dropWhile (cs : List Char) : Text.trim (cs.dropWhile Text.isBlank) = Text.trim cs := by
  rw [Text.trim, List.dropWhile_idempotent, Text.trim]

theorem trim_padded (hl : Blank left) (hr : Blank right) (cs : List Char) :
    Text.trim (left ++ cs ++ right) = Text.trim cs := by
  rw [trim_append_blank _ hr, Text.trim, List.dropWhile_append_of_pos hl, Text.trim]

end Padding

section Places
variable {r r' : Reading} {line : Line} {rows : List (List Char)}

/-- The section in force below a line: the one of a header's name, if there is one. -/
def Line.below (p : Option Section) : Line → Option Section
  | header name => Section.ofName? name
  | nothing | pair _ _ => p

/-- The section in force below some lines. Before all headers it is the root. -/
def inForce (rows : List (List Char)) : Option Section :=
  rows.foldl (fun p row => (Line.read row).below p) (some .root)

theorem step_place (h : r.step line = .ok r') : some r'.place = line.below (some r.place) := by
  cases line with
  | nothing =>
    obtain rfl := Except.ok.inj h
    rfl
  | header name =>
    rw [Line.below]
    cases named : Section.ofName? name with
    | none => simp [Reading.step, named] at h
    | some p =>
      simp only [Reading.step, named, Except.ok.injEq] at h
      rw [← h]
  | pair key value =>
    rw [Reading.step] at h
    split at h
    · obtain rfl := Except.ok.inj h
      rfl
    · split at h
      · obtain rfl := Except.ok.inj h
        rfl
      · cases h

/-- Lines that are read without an error leave the reader in the section in force below them. -/
theorem steps_place (h : Reading.steps {} rows = .ok r) : inForce rows = some r.place := by
  induction rows using List.reverseRecOn generalizing r with
  | nil =>
    obtain rfl := Except.ok.inj h
    rfl
  | append_singleton rows row ih =>
    rw [steps_append] at h
    cases before : Reading.steps {} rows with
    | error e => simp [before, Except.bind] at h
    | ok r' =>
      have place := ih before
      simp only [before, Except.bind, Reading.steps] at h
      split at h
      · next last =>
        obtain rfl := Except.ok.inj h
        rw [step_place last, ← place, inForce, List.foldl_append]
        rfl
      · cases h

end Places

section Lines
variable {p : Option Section} {r : Reading} {row : List Char}

/-- A line that says nothing where the section `p` is in force. -/
inductive Idle (p : Option Section) (row : List Char) : Prop
  | blank : Blank row → Idle p row
  /-- A remark on a line of its own. -/
  | remark : (Text.trim row).head? = some '#' → Idle p row
  | unassigned : '=' ∉ row → ¬ (Opens row ∧ Closes row) → Idle p row
  | unknown {left right : List Char} : row = left ++ '=' :: right → '=' ∉ left →
      (∀ s : Setting, p = some s.home → s.key.toList ≠ Text.trim left) →
      ¬ (Opens row ∧ Closes row) → Idle p row

theorem read_blank (h : Blank row) : Line.read row = .nothing := by
  rw [Line.read, trim_of_blank h]

theorem read_remark (h : (Text.trim row).head? = some '#') : Line.read row = .nothing := by
  obtain ⟨rest, first⟩ := List.head?_eq_some_iff.1 h
  simp only [Line.read, first]

/-- What is neither blank nor a remark nor a header is read as a pair. -/
theorem read_cases (h : ¬ (Opens row ∧ Closes row)) :
    Line.read row = .nothing ∨ Line.read row = Line.readPair (Text.trim row) := by
  unfold Line.read
  dsimp only
  split
  · exact .inl rfl
  · exact .inl rfl
  · next rest first =>
    have opens : Opens row := by rw [Opens, first]; rfl
    have open' : rest.getLast? ≠ some ']' := by
      intro last
      obtain ⟨inner, rfl⟩ := List.getLast?_eq_some_iff.1 last
      apply h
      refine ⟨opens, ?_⟩
      rw [Closes, first, ← List.cons_append, List.getLast?_concat]
    rw [if_neg open', first]
    exact .inr rfl
  · exact .inr rfl

theorem Idle.step (h : Idle (some r.place) row) : r.step (.read row) = .ok r := by
  cases h with
  | blank h => rw [read_blank h]; rfl
  | remark h => rw [read_remark h]; rfl
  | unassigned equals plain =>
    rcases read_cases plain with none | pair
    · rw [none]; rfl
    · rw [pair, readPair_none (mt mem_of_mem_trim equals)]; rfl
  | @unknown left right whole equals unknown plain =>
    rcases read_cases plain with none | pair
    · rw [none]; rfl
    · have kept : '=' ∉ left.dropWhile Text.isBlank :=
        fun mem => equals ((List.dropWhile_sublist _).mem mem)
      have key : Setting.find? r.place (Text.trim left) = none := by
        by_contra found
        obtain ⟨s, hs⟩ := Option.ne_none_iff_exists'.1 found
        obtain ⟨home, spelled⟩ := find?_eq_some_iff.1 hs
        exact unknown s (by rw [home]) spelled
      rw [pair, whole, trim_around (by decide), readPair_split kept, trim_dropWhile]
      split
      · rfl
      · simp [Reading.step, key]

end Lines

section Texts
variable {before row after rest text text' left right : List Char} {r : Reading}

/-- A text ends with a line that is not ended, which may be empty. -/
theorem last_row (text : List Char) :
    ∃ before row, text = before ++ row ∧ Ended before ∧ '\n' ∉ row := by
  induction text using row_induction with
  | last row clear => exact ⟨[], row, rfl, .inl rfl, clear⟩
  | cons row rest clear ih =>
    obtain ⟨before, last, rfl, ended, unended⟩ := ih
    refine ⟨row ++ '\n' :: before, last, by simp, .inr ?_, unended⟩
    rcases ended with rfl | ⟨t, rfl⟩
    · exact ⟨row, rfl⟩
    · exact ⟨row ++ '\n' :: t, by simp⟩

/-- A text is read up to a line feed and then from there on. -/
theorem steps_lines_append (r : Reading) (text rest : List Char) :
    r.steps (Text.lines (text ++ '\n' :: rest)) =
      (r.steps (Text.lines text)).bind fun r => r.steps (Text.lines rest) := by
  obtain ⟨before, row, rfl, ended, clear⟩ := last_row text
  have unended : Follows [] [] := .inr (.inr ⟨rfl, rfl⟩)
  have open' := steps_around ended unended clear r
  rw [List.append_nil] at open'
  rw [steps_around ended (.inl rfl) clear, open']
  cases r.steps (Text.lines before) with
  | error e => rfl
  | ok r =>
    simp only [Except.bind, Reading.steps, Text.lines]
    cases r.step (.read row) <;> rfl

/-- A line alone is read whether it is empty or not. -/
theorem steps_row (clear : '\n' ∉ row) : r.steps (Text.lines row) = r.steps [row] := by
  have alone : Follows [] [] := .inr (.inr ⟨rfl, rfl⟩)
  have read := alone.steps (r := r) clear
  rwa [List.append_nil] at read

/-- Every line ended by a carriage return and a line feed. -/
def withReturns (text : List Char) : List Char :=
  text.flatMap fun c => if c = '\n' then ['\r', '\n'] else [c]

theorem withReturns_row (clear : '\n' ∉ row) : withReturns row = row := by
  have single : ∀ c ∈ row, (if c = '\n' then ['\r', '\n'] else [c]) = [c] :=
    fun c hc => if_neg (ne_of_mem_of_not_mem hc clear)
  rw [withReturns, List.flatMap_congr single, List.flatMap_singleton']

theorem steps_withReturns (r : Reading) (text : List Char) :
    r.steps (Text.lines (withReturns text)) = r.steps (Text.lines text) := by
  induction text using row_induction generalizing r with
  | last row clear => rw [withReturns_row clear]
  | cons row rest clear ih =>
    have ended : withReturns (row ++ '\n' :: rest) = row ++ '\r' :: '\n' :: withReturns rest := by
      have row_same := withReturns_row clear
      rw [withReturns] at row_same ⊢
      rw [List.flatMap_append, row_same, List.flatMap_cons]
      rfl
    rw [ended, Follows.steps clear (.inr (.inl rfl)), Follows.steps clear (.inl rfl),
      Reading.steps, Reading.steps]
    cases r.step (.read row) with
    | error e => rfl
    | ok next => exact ih next

/-- One edit of the lines that say nothing, or of the layout. -/
inductive Edit : List Char → List Char → Prop
  /-- A line is put in front of another one, or behind a last line that is ended. -/
  | insert {before row after rest : List Char} : Ended before → Follows after rest → '\n' ∉ row →
      Idle (inForce (Text.lines before)) row → Edit (before ++ rest) (before ++ row ++ after)
  /-- A line is put behind the last one, with a line feed between them. -/
  | append {text row : List Char} : '\n' ∉ row → Idle (inForce (Text.lines text)) row →
      Edit text (text ++ '\n' :: row)
  /-- White space is put around a line. -/
  | pad {before row after rest left right : List Char} : Ended before → Follows after rest →
      '\n' ∉ row → Blank left → Blank right → '\n' ∉ left → '\n' ∉ right →
      Edit (before ++ row ++ after) (before ++ (left ++ row ++ right) ++ after)
  | returns (text : List Char) : Edit text (withReturns text)

theorem Edit.steps (h : Edit text text') :
    Reading.steps {} (Text.lines text') = Reading.steps {} (Text.lines text) := by
  cases h with
  | @insert before row after rest ended follows clear idle =>
    rw [steps_around ended follows clear, ended.lines_append, steps_append]
    cases above : Reading.steps {} (Text.lines before) with
    | error e => rfl
    | ok r =>
      rw [steps_place above] at idle
      exact steps_cons_ok idle.step _
  | @append text row clear idle =>
    rw [steps_lines_append]
    cases above : Reading.steps {} (Text.lines text) with
    | error e => rfl
    | ok r =>
      rw [steps_place above] at idle
      exact (steps_row clear).trans (steps_cons_ok idle.step [])
  | @pad before row after rest left right ended follows clear hl hr feed feed' =>
    have clear' : '\n' ∉ left ++ row ++ right := by simp [clear, feed, feed']
    rw [steps_around ended follows clear', steps_around ended follows clear]
    exact congrArg _ (funext fun r => steps_congr_read (read_congr (trim_padded hl hr row)) _)
  | returns => exact steps_withReturns {} text

/-- However many lines that say nothing are put between the lines of a text, whatever white space
around them, and whether lines end with a carriage return or not, it is read as before: to the same
configuration or to the same error. -/
theorem edits_keep_meaning (h : Relation.ReflTransGen Edit text text') :
    parse text' = parse text := by
  induction h with
  | refl => rfl
  | tail _ edit ih => rw [← ih, parse, parse, edit.steps]

/-- A remark, a key of another section, padding, half a header and other line ends. -/
theorem edits_keep_meaning_timing :
    let header := "[timing]".toList
    let row := "tx_timeout_us = 5_000".toList
    let remark := "# in us".toList
    let foreign := "mode = \"pio\"".toList
    let half := "[loopback".toList
    let plain := header ++ '\n' :: row
    let padded := remark ++ '\n' :: (header ++ '\n' ::
      (foreign ++ '\n' :: (['\u2003'] ++ row ++ ['\t'])))
    let edited := withReturns (padded ++ '\n' :: half)
    Relation.ReflTransGen Edit plain edited ∧ parse edited = parse plain := by
  intro header row remark foreign half plain padded edited
  obtain ⟨remark_clear, foreign_clear, row_clear, half_clear⟩ :
    '\n' ∉ remark ∧ '\n' ∉ foreign ∧ '\n' ∉ row ∧ '\n' ∉ half := by decide
  let above := remark ++ '\n' :: header
  let extended := remark ++ '\n' :: (header ++ '\n' :: (foreign ++ '\n' :: row))
  have remarked : Edit plain (remark ++ '\n' :: plain) :=
    @Edit.insert [] remark ('\n' :: plain) plain (.inl rfl) (.inl rfl) remark_clear
      (.remark (by decide))
  have keyed : Edit (remark ++ '\n' :: plain) extended := by
    have timing : inForce (Text.lines (above ++ ['\n'])) = some .timing := by decide
    have idle : Idle (inForce (Text.lines (above ++ ['\n']))) foreign := by
      rw [timing]
      refine @Idle.unknown _ _ "mode ".toList " \"pio\"".toList rfl (by decide) ?_ (by decide)
      intro s home
      cases s <;> first | exact absurd home (by decide) | decide
    simpa [above, plain, extended] using @Edit.insert (above ++ ['\n']) foreign ('\n' :: row) row
      (.inr ⟨above, rfl⟩) (.inl rfl) foreign_clear idle
  have filled : Edit extended padded := by
    simpa [above, extended, padded] using @Edit.pad (above ++ '\n' :: foreign ++ ['\n']) row [] []
      ['\u2003'] ['\t'] (.inr ⟨above ++ '\n' :: foreign, rfl⟩) (.inr (.inr ⟨rfl, rfl⟩)) row_clear
      (blank_singleton (by decide)) (blank_singleton (by decide)) (by decide) (by decide)
  have halved : Edit padded (padded ++ '\n' :: half) :=
    .append half_clear (.unassigned (by decide) (by decide))
  have edits : Relation.ReflTransGen Edit plain edited :=
    .tail (.tail (.tail (.tail (.single remarked) keyed) filled) halved) (.returns _)
  exact ⟨edits, edits_keep_meaning edits⟩

end Texts

end Joybus.Config
