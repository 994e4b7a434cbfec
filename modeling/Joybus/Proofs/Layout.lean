import Joybus.Proofs.Rows

/-! Blanks, line ends and remarks: what the reader of configuration text makes of the same line laid
out in another way. -/
namespace Joybus.Config

section Trimming
variable {c : Char} {cs gap : List Char}

/-- A text is blank, or blanks stand around something that cannot be trimmed. -/
theorem blank_or_pad (cs : List Char) : Blank cs ∨
    ∃ before mid after, cs = before ++ mid ++ after ∧ Blank before ∧ Blank after ∧ Tight mid := by
  induction cs with
  | nil => exact .inl blank_nil
  | cons c cs ih =>
    cases hc : Text.isBlank c with
    | true =>
      rcases ih with blank | ⟨before, mid, after, rfl, hb, ha, ht⟩
      · exact .inl ((blank_singleton hc).append blank)
      · exact .inr ⟨c :: before, mid, after, rfl, (blank_singleton hc).append hb, ha, ht⟩
    | false =>
      rcases ih with blank | ⟨before, mid, after, rfl, -, ha, -, rest, d, rfl, hd⟩
      · exact .inr ⟨[], [c], cs, rfl, blank_nil, blank, ⟨c, [], rfl, hc⟩, ⟨[], c, rfl, hc⟩⟩
      · exact .inr ⟨[], c :: (before ++ (rest ++ [d])), after, by simp, blank_nil, ha,
          ⟨c, _, rfl, hc⟩, ⟨c :: (before ++ rest), d, by simp, hd⟩⟩

theorem trim_of_blank (h : Blank cs) : Text.trim cs = [] := by
  rw [Text.trim, List.dropWhile_eq_nil_iff.2 h]
  rfl

theorem trim_append_blank (cs : List Char) (hg : Blank gap) :
    Text.trim (cs ++ gap) = Text.trim cs := by
  rcases blank_or_pad cs with blank | ⟨before, mid, after, rfl, hb, ha, ht⟩
  · rw [trim_of_blank blank, trim_of_blank (blank.append hg)]
  · rw [List.append_assoc _ after, trim_pad before _ hb (ha.append hg) ht,
      trim_pad before after hb ha ht]

theorem trim_trim (cs : List Char) : Text.trim (Text.trim cs) = Text.trim cs := by
  rcases blank_or_pad cs with blank | ⟨before, mid, after, rfl, hb, ha, ht⟩
  · rw [trim_of_blank blank]
    rfl
  · rw [trim_pad before after hb ha ht, trim_of_tight ht]

/-- What is no blank is not trimmed off. -/
theorem mem_trim (h : c ∈ cs) (hc : Text.isBlank c = false) : c ∈ Text.trim cs := by
  rcases blank_or_pad cs with blank | ⟨before, mid, after, rfl, hb, ha, ht⟩
  · exact absurd h (blank.not_mem hc)
  · rw [trim_pad before after hb ha ht]
    simpa [hb.not_mem hc, ha.not_mem hc] using h

theorem mem_of_mem_trim (h : c ∈ Text.trim cs) : c ∈ cs := by
  rcases blank_or_pad cs with blank | ⟨before, mid, after, rfl, hb, ha, ht⟩
  · rw [trim_of_blank blank] at h
    exact absurd h (by simp)
  · rw [trim_pad before after hb ha ht] at h
    simp [h]

end Trimming

section Ends
variable {row line rest after : List Char} {r : Reading}

theorem read_congr (h : Text.trim row = Text.trim line) : Line.read row = Line.read line := by
  rw [Line.read, Line.read, h]

theorem read_trim (line : List Char) : Line.read (Text.trim line) = Line.read line :=
  read_congr (trim_trim line)

/-- A line ends at the first line feed, less a carriage return right before it. -/
theorem lines_row (h : '\n' ∉ row) : ∃ line, (row = line ∨ row = line ++ ['\r']) ∧
    ∀ rest, Text.lines (row ++ '\n' :: rest) = line :: Text.lines rest := by
  induction row with
  | nil => exact ⟨[], .inl rfl, fun rest => by rw [List.nil_append, Text.lines]⟩
  | cons c row ih =>
    obtain ⟨feed, rest⟩ := not_or.1 (mt List.mem_cons.2 h)
    obtain ⟨line, same, split⟩ := ih rest
    by_cases last : c = '\r' ∧ row = []
    · obtain ⟨rfl, rfl⟩ := last
      exact ⟨[], .inr rfl, fun rest => by rw [List.cons_append, List.nil_append, Text.lines]⟩
    · refine ⟨c :: line, by simpa using same, ?_⟩
      intro rest'
      rw [List.cons_append, Text.lines, split]
      · exact fun hc => feed hc.symm
      · rintro rest'' rfl he
        cases row with
        | nil => exact last ⟨rfl, rfl⟩
        | cons d row =>
          obtain rfl : d = '\n' := (List.cons.inj he).1
          exact rest (List.mem_cons_self ..)

theorem lines_last (h : '\n' ∉ row) (hn : row ≠ []) : Text.lines row = [row] := by
  induction row with
  | nil => exact absurd rfl hn
  | cons c row ih =>
    obtain ⟨feed, rest⟩ := not_or.1 (mt List.mem_cons.2 h)
    rw [Text.lines]
    · cases row with
      | nil => rfl
      | cons d row => rw [ih rest (by simp)]
    · exact fun hc => feed hc.symm
    · rintro rest' rfl rfl
      exact rest (List.mem_cons_self ..)

/-- Induction on the lines of a text: a line that is not ended, or one more in front of a text. -/
@[elab_as_elim]
theorem row_induction {motive : List Char → Prop} (last : ∀ row, '\n' ∉ row → motive row)
    (cons : ∀ row rest, '\n' ∉ row → motive rest → motive (row ++ '\n' :: rest))
    (text : List Char) : motive text := by
  induction n : text.length using Nat.strong_induction_on generalizing text with
  | _ n ih =>
    subst n
    by_cases feed : '\n' ∈ text
    · obtain ⟨row, rest, rfl, clear⟩ := List.eq_append_cons_of_mem feed
      exact cons row rest clear (ih rest.length (by simp; omega) rest rfl)
    · exact last text feed

/-- A text after a line feed has lines of its own. -/
theorem lines_append_ended (t rest : List Char) :
    Text.lines (t ++ '\n' :: rest) = Text.lines (t ++ ['\n']) ++ Text.lines rest := by
  induction t using row_induction with
  | last row clear =>
    obtain ⟨line, -, split⟩ := lines_row clear
    rw [split, split]
    rfl
  | cons row t clear ih =>
    obtain ⟨line, -, split⟩ := lines_row clear
    rw [List.append_assoc, List.append_assoc, List.cons_append, List.cons_append, split, split,
      ih, List.cons_append]

/-- How the line before ended, if there is one. -/
def Ended (before : List Char) : Prop := before = [] ∨ ∃ t, before = t ++ ['\n']

/-- What may come behind a line: its end and what else there is, or nothing. -/
def Follows (after rest : List Char) : Prop :=
  after = '\n' :: rest ∨ after = '\r' :: '\n' :: rest ∨ after = [] ∧ rest = []

theorem Ended.lines_append {before : List Char} (h : Ended before) (rest : List Char) :
    Text.lines (before ++ rest) = Text.lines before ++ Text.lines rest := by
  obtain rfl | ⟨t, rfl⟩ := h
  · rfl
  · rw [List.append_assoc]
    exact lines_append_ended t rest

theorem steps_append (r : Reading) (rows more : List (List Char)) :
    r.steps (rows ++ more) = (r.steps rows).bind (·.steps more) := by
  induction rows generalizing r with
  | nil => rfl
  | cons row rows ih =>
    rw [List.cons_append, Reading.steps, Reading.steps]
    cases r.step (.read row) with
    | ok next => exact ih next
    | error e => rfl

theorem steps_congr_read (h : Line.read row = Line.read line) (rows : List (List Char)) :
    r.steps (row :: rows) = r.steps (line :: rows) := by
  rw [Reading.steps, Reading.steps, h]

/-- A line is read alike however it ends. -/
theorem Follows.steps (hl : '\n' ∉ line) (h : Follows after rest) :
    r.steps (Text.lines (line ++ after)) = r.steps (line :: Text.lines rest) := by
  have ended : ∀ {row : List Char}, '\n' ∉ row →
      r.steps (Text.lines (row ++ '\n' :: rest)) = r.steps (row :: Text.lines rest) := by
    intro row hr
    obtain ⟨line, same, split⟩ := lines_row hr
    rw [split]
    apply steps_congr_read
    rcases same with rfl | rfl
    · rfl
    · exact read_congr (trim_append_blank line (blank_singleton (by decide))).symm
  obtain rfl | rfl | ⟨rfl, rfl⟩ := h
  · exact ended hl
  · have carried := ended (show '\n' ∉ line ++ ['\r'] by simpa using hl)
    rw [List.append_assoc] at carried
    exact carried.trans (steps_congr_read
      (read_congr (trim_append_blank line (blank_singleton (by decide)))) _)
  · rw [List.append_nil]
    cases line with
    | nil => rfl
    | cons c line => rw [lines_last hl (by simp)]; rfl

end Ends

section Remarks
variable {cs value gap : List Char}

/-- A remark starts with a sign and goes on to the end of the line, where it may be trimmed. -/
theorem remark_cases (remark : List Char) : ∃ shown gap, remark = shown ++ gap ∧
    Blank gap ∧ Tight ('#' :: shown) := by
  rcases blank_or_pad remark with blank | ⟨before, mid, after, rfl, -, ha, -, rest, d, rfl, hd⟩
  · exact ⟨[], remark, rfl, blank, ⟨'#', [], rfl, by decide⟩, ⟨[], '#', rfl, by decide⟩⟩
  · exact ⟨before ++ (rest ++ [d]), after, rfl, ha, ⟨'#', _, rfl, by decide⟩,
      ⟨'#' :: (before ++ rest), d, by simp, hd⟩⟩

/-- A remark behind a value is cut if the value has as many opening quotes as closing ones. -/
theorem uncomment_remark (ht : Tight value) (hash : '#' ∉ value) (hg : Blank gap)
    (remark : List Char) :
    Line.uncomment (value ++ gap ++ '#' :: remark) =
      if value.count '"' % 2 = 0 then value else value ++ gap ++ '#' :: remark := by
  have clear : ∀ c ∈ value ++ gap, decide (c ≠ '#') = true := by
    intro c hc
    rcases List.mem_append.1 hc with hc | hc
    · simpa using ne_of_mem_of_not_mem hc hash
    · simpa using ne_of_mem_of_not_mem hc (hg.not_mem (by decide))
  have cut : (value ++ gap ++ '#' :: remark).takeWhile (· ≠ '#') = value ++ gap := by
    rw [List.takeWhile_append_of_pos clear]
    simp
  have quotes : (value ++ gap).count '"' = value.count '"' := by
    rw [List.count_append, List.count_eq_zero_of_not_mem (hg.not_mem (by decide)),
      Nat.add_zero]
  rw [Line.uncomment]
  simp only [cut, quotes, trim_append_blank value hg, trim_of_tight ht]

theorem readPair_none (h : '=' ∉ cs) : Line.readPair cs = .nothing := by
  have clear : cs.dropWhile (· ≠ '=') = [] := by
    rw [List.dropWhile_eq_nil_iff]
    intro c hc
    simpa using ne_of_mem_of_not_mem hc h
  simp only [Line.readPair, clear]

end Remarks

end Joybus.Config
