import Joybus.Proofs.Layout
import Joybus.Proofs.Loading

/-! Remarks behind the lines of a configuration: where the reader passes them over, and what becomes
of a header that has one. -/
namespace Joybus.Config

section Refusals
variable {value key : List Char}

theorem unquote_cases (value : List Char) : unquote value = value ∨
    ∃ inner, value = '"' :: inner ++ ['"'] ∧ unquote value = inner := by
  unfold unquote
  split
  · next rest =>
    split
    · next closed =>
      obtain ⟨inner, rfl⟩ := List.getLast?_eq_some_iff.1 closed
      exact .inr ⟨inner, rfl, by simp⟩
    · exact .inl rfl
  · exact .inl rfl

/-- No setting has a value with a comment sign or a quote in it, quotes around it apart. -/
theorem read?_eq_none {c : Char} (sign : c = '#' ∨ c = '"') (hu : c ∈ unquote value)
    (s : Setting) : s.read? value = none := by
  have whole : c ∈ value := by
    rcases unquote_cases value with same | ⟨inner, rfl, inside⟩
    · exact same ▸ hu
    · simp [inside ▸ hu]
  have number : ∀ {w}, 4 ≤ w → number? w value = none := by
    intro w hw
    rcases sign with rfl | rfl <;>
      exact number?_eq_none hw whole (by decide) (by decide) (by decide)
  have other : ∀ {text : List Char}, c ∈ text → ∀ word ∈ ["true", "false", "dma", "fifo", "one"],
      text ≠ word.toList := by
    rintro text mem word known rfl
    simp only [List.mem_cons, List.not_mem_nil, or_false] at known
    rcases sign with rfl | rfl <;> rcases known with rfl | rfl | rfl | rfl | rfl <;>
      exact absurd mem (by decide)
  have switch : readSwitch value = none := by
    rw [readSwitch, if_neg (other whole "true" (by simp)), if_neg (other whole "false" (by simp))]
  have mode : readMode value = none := by
    rw [readMode, if_neg (other hu "dma" (by simp)), if_neg (other hu "fifo" (by simp))]
  have packing : readPacking value = none := by
    rw [readPacking, if_neg (other hu "one" (by simp))]
  have byte := number (w := 8) (by decide)
  have word := number (w := 32) (by decide)
  cases s <;> simp [Setting.read?, byte, word, switch, mode, packing]

theorem read?_of_hash (h : '#' ∈ value) (s : Setting) : s.read? value = none := by
  refine read?_eq_none (.inl rfl) ?_ s
  rcases unquote_cases value with same | ⟨inner, rfl, inside⟩
  · rwa [same]
  · rw [inside]
    simpa using h

theorem read?_of_odd (h : value.count '"' % 2 ≠ 0) (s : Setting) : s.read? value = none := by
  refine read?_eq_none (.inr rfl) ?_ s
  rcases unquote_cases value with same | ⟨inner, rfl, inside⟩
  · rw [same, ← List.count_pos_iff]
    omega
  · have fewer : ('"' :: inner ++ ['"']).count '"' = inner.count '"' + 2 := by simp
    rw [inside, ← List.count_pos_iff]
    omega

/-- A pair whose key has a character in it that no key has is passed over. -/
theorem step_pair_odd {c : Char} (hc : c ∈ key) (odd : Toml.isBareKeyChar c = false) (r : Reading) :
    r.step (.pair key value) = .ok r := by
  have none : Setting.find? r.place key = none := by
    by_contra found
    obtain ⟨s, hs⟩ := Option.ne_none_iff_exists'.1 found
    obtain ⟨-, rfl⟩ := find?_eq_some_iff.1 hs
    rw [(bare_key s).2 c hc] at odd
    exact absurd odd (by decide)
  simp [Reading.step, none]

theorem step_pair_refused (h : ∀ s : Setting, s.read? value = none) (r : Reading) :
    r.step (.pair key value) =
      if (Setting.find? r.place key).isSome then .error .invalidValue else .ok r := by
  rw [Reading.step]
  cases Setting.find? r.place key with
  | none => rfl
  | some s => simp [assign_of_read_none (h s)]

/-- A line without an equals sign says nothing, and neither does one with something before it that
no key has. -/
theorem step_readPair_odd {c : Char} {cs rest : List Char} (hc : c ∈ cs)
    (odd : Toml.isBareKeyChar c = false) (dark : Text.isBlank c = false) (none : '=' ∉ cs)
    (r : Reading) : r.step (Line.readPair (cs ++ rest)) = .ok r := by
  by_cases equals : '=' ∈ rest
  · obtain ⟨front, back, rfl, clear⟩ := List.eq_append_cons_of_mem equals
    rw [← List.append_assoc, readPair_split (by simp [none, clear])]
    split
    · rfl
    · exact step_pair_odd (mem_trim (by simp [hc]) dark) odd r
  · rw [readPair_none (by simp [none, equals])]
    rfl

end Refusals

section Lines
variable {cs gap shown line remark : List Char}

/-- The line starts with a bracket. -/
def Opens (line : List Char) : Prop := (Text.trim line).head? = some '['

/-- The line ends with a bracket. -/
def Closes (line : List Char) : Prop := (Text.trim line).getLast? = some ']'

instance (line : List Char) : Decidable (Opens line) :=
  inferInstanceAs (Decidable (_ = _))

instance (line : List Char) : Decidable (Closes line) :=
  inferInstanceAs (Decidable (_ = _))

/-- A line with a remark behind it. -/
def remarked (line remark : List Char) : List Char := line ++ ' ' :: '#' :: remark

/-- The value before a remark is read as it is without, or is one that no setting takes either
way: the remark counts as part of a string that is not closed. -/
theorem uncomment_trim_remark {right : List Char} (hash : '#' ∉ right)
    (hg : Blank gap) (hs : Tight ('#' :: shown)) :
    let value := Line.uncomment (Text.trim right)
    let value' := Line.uncomment (Text.trim (right ++ gap ++ '#' :: shown))
    value' = value ∨ (value ≠ [] ∧ value' ≠ []) ∧ (∀ s : Setting, s.read? value = none) ∧
      ∀ s : Setting, s.read? value' = none := by
  intro value value'
  rcases blank_or_pad right with blank | ⟨before, mid, after, rfl, hb, ha, hm⟩
  · have trimmed : Text.trim (right ++ gap ++ '#' :: shown) = '#' :: shown := by
      simpa using trim_pad (right ++ gap) [] (blank.append hg) blank_nil hs
    have empty : Line.uncomment ('#' :: shown) = [] := by simp [Line.uncomment, Text.trim]
    have empty' : value' = [] := (congrArg Line.uncomment trimmed).trans empty
    have none : value = [] := congrArg Line.uncomment (trim_of_blank blank)
    exact .inl (empty'.trans none.symm)
  · have clean : '#' ∉ mid := fun mem => hash (by simp [mem])
    have whole : value = mid := by
      rw [← uncomment_of_not_mem hm clean, ← trim_pad before after hb ha hm]
    have trimmed : Text.trim (before ++ mid ++ after ++ gap ++ '#' :: shown) =
        mid ++ (after ++ gap) ++ '#' :: shown := by
      simpa using trim_pad before [] hb blank_nil (hm.append (after ++ gap) hs)
    have cut : value' =
        if mid.count '"' % 2 = 0 then mid else mid ++ (after ++ gap) ++ '#' :: shown :=
      (congrArg Line.uncomment trimmed).trans (uncomment_remark hm clean (ha.append hg) shown)
    -- with a quote left open, both texts are refused by every setting
    by_cases even : mid.count '"' % 2 = 0
    · exact .inl ((cut.trans (if_pos even)).trans whole.symm)
    · rw [if_neg even] at cut
      rw [whole, cut]
      exact .inr ⟨⟨hm.ne_nil, by simp⟩, read?_of_odd even, read?_of_hash (by simp)⟩

theorem step_readPair_remark (hash : '#' ∉ cs) (hg : Blank gap)
    (hs : Tight ('#' :: shown)) (r : Reading) :
    r.step (Line.readPair (cs ++ gap ++ '#' :: shown)) = r.step (Line.readPair cs) := by
  -- without an equals sign before the remark there is no pair, whatever the remark says
  by_cases equals : '=' ∈ cs
  · obtain ⟨left, right, rfl, clear⟩ := List.eq_append_cons_of_mem equals
    have line : left ++ '=' :: right ++ gap ++ '#' :: shown =
        left ++ '=' :: (right ++ gap ++ '#' :: shown) := by simp
    have clean : '#' ∉ right := fun mem => hash (by simp [mem])
    rw [line, readPair_split clear, readPair_split clear]
    rcases uncomment_trim_remark clean hg hs with same | ⟨⟨filled, filled'⟩, refused, refused'⟩
    · rw [same]
    · rw [List.isEmpty_eq_false_iff.2 filled, List.isEmpty_eq_false_iff.2 filled', Bool.or_false]
      split
      · rfl
      · rw [step_pair_refused refused, step_pair_refused refused']
  · have line : cs ++ gap ++ '#' :: shown = cs ++ gap ++ ['#'] ++ shown := by simp
    have none : '=' ∉ cs ++ gap ++ ['#'] := by
      simpa [equals] using hg.not_mem (by decide)
    rw [line, step_readPair_odd (c := '#') (by simp) (by decide) (by decide) none,
      readPair_none equals]
    rfl

theorem trim_sign (remark : List Char) :
    ∃ shown, Text.trim ('#' :: remark) = '#' :: shown ∧ Tight ('#' :: shown) := by
  obtain ⟨shown, gap, rfl, hg, tight⟩ := remark_cases remark
  exact ⟨shown, trim_pad [] gap blank_nil hg tight, tight⟩

/-- A line with a remark is trimmed where the line starts and where the remark ends. -/
theorem trim_remarked (line remark : List Char) :
    Blank line ∧ Text.trim (remarked line remark) = Text.trim ('#' :: remark) ∨
      ∃ gap, Blank gap ∧ Tight (Text.trim line) ∧
        Text.trim (remarked line remark) =
          Text.trim line ++ gap ++ Text.trim ('#' :: remark) := by
  obtain ⟨shown, behind, rfl, hg, tight⟩ := remark_cases remark
  have alone : Text.trim ('#' :: (shown ++ behind)) = '#' :: shown :=
    trim_pad [] behind blank_nil hg tight
  have space : Blank [' '] := blank_singleton (by decide)
  rw [alone]
  rcases blank_or_pad line with blank | ⟨before, mid, after, rfl, hb, ha, hm⟩
  · refine .inl ⟨blank, ?_⟩
    rw [← trim_pad (line ++ [' ']) behind (blank.append space) hg tight, remarked]
    simp
  · rw [trim_pad before after hb ha hm]
    refine .inr ⟨after ++ [' '], ha.append space, hm, ?_⟩
    rw [← trim_pad before behind hb hg (hm.append (after ++ [' ']) tight), remarked]
    simp

/-- Unless it opens a bracket, a line says the same with a remark behind it. -/
theorem step_remarked (hash : '#' ∉ line) (h : ¬ Opens line) (remark : List Char) (r : Reading) :
    r.step (.read (remarked line remark)) = r.step (.read line) := by
  obtain ⟨shown, trimmed, tight⟩ := trim_sign remark
  rw [← read_trim, ← read_trim line]
  rcases trim_remarked line remark with ⟨blank, whole⟩ | ⟨gap, hg, ht, whole⟩
  · rw [whole, trimmed, trim_of_blank blank, Line.read, trim_of_tight tight]
    rfl
  · rw [whole, trimmed]
    have clean : '#' ∉ Text.trim line := fun mem => hash (mem_of_mem_trim mem)
    obtain ⟨c, rest, first⟩ := List.exists_cons_of_ne_nil ht.ne_nil
    have sign : c ≠ '#' := by
      rintro rfl
      exact clean (by simp [first])
    have bracket : c ≠ '[' := by
      rintro rfl
      exact h (by simp [Opens, first])
    have long := ht.append gap tight
    have same := step_readPair_remark clean hg tight r
    rw [first] at ht long same ⊢
    rw [read_of_head ht sign bracket, ← same]
    exact congrArg r.step (read_of_head long sign bracket)

/-- A line that opens a bracket and does not close it says nothing. -/
theorem step_unclosed (h : Opens line) (hc : ¬ Closes line) (r : Reading) :
    r.step (.read line) = .ok r := by
  obtain ⟨rest, whole⟩ := List.head?_eq_some_iff.1 h
  have open' : rest.getLast? ≠ some ']' := by
    intro last
    obtain ⟨inner, rfl⟩ := List.getLast?_eq_some_iff.1 last
    apply hc
    rw [Closes, whole, ← List.cons_append, List.getLast?_concat]
  rw [Line.read, whole]
  simp only [if_neg open']
  exact step_readPair_odd (List.mem_singleton_self '[') (by decide) (by decide) (by decide) r

/-- A line between brackets is a header. -/
theorem read_closed (h : Opens line) (hc : Closes line) : ∃ inner,
    Text.trim line = '[' :: inner ++ [']'] ∧ Line.read line = .header (Text.trim inner) := by
  obtain ⟨rest, whole⟩ := List.head?_eq_some_iff.1 h
  have last : ('[' :: rest).getLast? = some ']' := whole ▸ hc
  rcases List.eq_nil_or_concat rest with rfl | ⟨inner, d, rfl⟩
  · exact absurd last (by decide)
  · rw [List.concat_eq_append, ← List.cons_append, List.getLast?_concat, Option.some_inj] at last
    subst last
    refine ⟨inner, by rw [whole, List.concat_eq_append, List.cons_append], ?_⟩
    rw [Line.read, whole]
    simp

theorem opens_remarked (h : Opens line) (remark : List Char) : Opens (remarked line remark) := by
  obtain ⟨rest, first⟩ := List.head?_eq_some_iff.1 h
  rcases trim_remarked line remark with ⟨blank, -⟩ | ⟨gap, -, -, whole⟩
  · rw [trim_of_blank blank] at first
    exact absurd first (by simp)
  · rw [Opens, whole, first]
    rfl

/-- A line ends with a bracket if its remark does. -/
theorem closes_remarked (line remark : List Char) :
    Closes (remarked line remark) ↔ Closes ('#' :: remark) := by
  obtain ⟨shown, trimmed, -⟩ := trim_sign remark
  rcases trim_remarked line remark with ⟨-, whole⟩ | ⟨gap, -, -, whole⟩
  · rw [Closes, whole, Closes]
  · rw [Closes, whole, Closes, trimmed, List.getLast?_append, List.getLast?_cons, Option.some_or]

/-- A header with a remark that ends with a bracket has the name of no section. -/
theorem step_closed_remark (h : Opens line) (hc : Closes ('#' :: remark))
    (r : Reading) : r.step (.read (remarked line remark)) = .error .invalidSection := by
  obtain ⟨inner, whole, read⟩ :=
    read_closed (opens_remarked h remark) ((closes_remarked line remark).2 hc)
  have sign : '#' ∈ inner := by
    have mem : '#' ∈ Text.trim (remarked line remark) :=
      mem_trim (by simp [remarked]) (by decide)
    simpa [whole] using mem
  have unknown : Section.ofName? (Text.trim inner) = none := by
    by_contra found
    obtain ⟨p, hp⟩ := Option.ne_none_iff_exists'.1 found
    obtain ⟨headed, named⟩ := ofName?_eq_some_iff.1 hp
    have bare := (bare_name headed).2 '#' (named ▸ mem_trim sign (by decide))
    exact absurd bare (by decide)
  rw [read]
  simp [Reading.step, unknown]

end Lines

section Texts
variable {before line row row' after rest remark : List Char}

/-- A text is read up to one of its lines, then that line, then the rest. -/
theorem steps_around (hb : Ended before) (ha : Follows after rest) (hl : '\n' ∉ row) (r : Reading) :
    r.steps (Text.lines (before ++ row ++ after)) =
      (r.steps (Text.lines before)).bind fun r => r.steps (row :: Text.lines rest) := by
  rw [List.append_assoc, hb.lines_append, steps_append]
  exact congrArg _ (funext fun r => ha.steps hl)

theorem parse_congr_line (hb : Ended before) (ha : Follows after rest) (hl : '\n' ∉ row)
    (hl' : '\n' ∉ row') (h : ∀ r : Reading, r.step (.read row) = r.step (.read row')) :
    parse (before ++ row ++ after) = parse (before ++ row' ++ after) := by
  have same : Reading.steps {} (Text.lines (before ++ row ++ after)) =
      Reading.steps {} (Text.lines (before ++ row' ++ after)) := by
    rw [steps_around hb ha hl, steps_around hb ha hl']
    refine congrArg _ (funext fun r => ?_)
    rw [Reading.steps, Reading.steps, h r]
  rw [parse, parse, same]

theorem parse_error_line (hb : Ended before) (ha : Follows after rest) (hl : '\n' ∉ row)
    {e : TextError} (h : ∀ r : Reading, r.step (.read row) = .error e) :
    ∃ e, parse (before ++ row ++ after) = .error e := by
  rw [parse, steps_around hb ha hl]
  cases Reading.steps {} (Text.lines before) with
  | error e => exact ⟨e, rfl⟩
  | ok r =>
    refine ⟨e, ?_⟩
    rw [Except.bind, steps_cons_error (h r)]

/-- A remark behind a line that is no header changes nothing, unless it closes a bracket that the
line opens. A header with a remark is passed over as if the line were empty, so that the keys below
it count for the section above. If the remark ends with a bracket, the text is refused. -/
theorem remark_behind_line (hb : Ended before) (ha : Follows after rest) (feed : '\n' ∉ line)
    (hash : '#' ∉ line) (feed' : '\n' ∉ remark) :
    let text := before ++ remarked line remark ++ after
    (¬ (Opens line ∧ (Closes line ∨ Closes ('#' :: remark))) →
      parse text = parse (before ++ line ++ after)) ∧
    (Opens line → ¬ Closes ('#' :: remark) → parse text = parse (before ++ after)) ∧
    (Opens line → Closes ('#' :: remark) → parse text = parse (before ++ ['[', ']'] ++ after) ∧
      ∃ e, parse text = .error e) := by
  intro text
  have feeds : '\n' ∉ remarked line remark := by simp [remarked, feed, feed']
  refine ⟨?_, ?_, ?_⟩
  · intro plain
    apply parse_congr_line hb ha feeds feed
    intro r
    -- a bracket that is never closed says nothing with the remark and nothing without
    by_cases opens : Opens line
    · obtain ⟨unclosed, open'⟩ := not_or.1 fun closes => plain ⟨opens, closes⟩
      rw [step_unclosed opens unclosed,
        step_unclosed (opens_remarked opens remark) (mt (closes_remarked line remark).1 open')]
    · exact step_remarked hash opens remark r
  · intro opens open'
    have silent : ∀ r : Reading, r.step (.read (remarked line remark)) = r.step (.read []) :=
      step_unclosed (opens_remarked opens remark) (mt (closes_remarked line remark).1 open')
    have passed := parse_congr_line hb ha feeds (by simp) silent
    rwa [List.append_nil] at passed
  · intro opens closes
    have refused := step_closed_remark opens closes
    exact ⟨parse_congr_line hb ha feeds (by decide) refused,
      parse_error_line hb ha feeds refused⟩

/-- A time with a remark that has a quote in it, and a header with two remarks, of which the second
ends with a bracket. -/
theorem remark_behind_line_timing :
    let key := "tx_timeout_us = 5_000".toList
    let header := "[loopback]".toList
    let remark := " in \"us".toList
    let bracketed := " [self-test]".toList
    let before := "[timing]\n".toList
    let after := "\nenabled = false\n".toList
    Ended before ∧ Follows after "enabled = false\n".toList ∧
      ('\n' ∉ key ∧ '#' ∉ key ∧ '\n' ∉ remark ∧ ¬ Opens key ∧
        parse (before ++ remarked key remark ++ after) = parse (before ++ key ++ after)) ∧
      ('\n' ∉ header ∧ '#' ∉ header ∧ '\n' ∉ remark ∧ Opens header ∧ ¬ Closes ('#' :: remark) ∧
        parse (before ++ remarked header remark ++ after) = parse (before ++ after)) ∧
      ('\n' ∉ bracketed ∧ Closes ('#' :: bracketed) ∧
        ∃ e, parse (before ++ remarked header bracketed ++ after) = .error e) := by
  intro key header remark bracketed before after
  have ended : Ended before := .inr ⟨"[timing]".toList, rfl⟩
  have follows : Follows after "enabled = false\n".toList := .inl rfl
  have plain : ¬ Opens key := by decide
  have opens : Opens header := by decide
  have open' : ¬ Closes ('#' :: remark) := by decide
  have closes : Closes ('#' :: bracketed) := by decide
  have single : '\n' ∉ key ∧ '\n' ∉ header ∧ '\n' ∉ remark ∧ '\n' ∉ bracketed := by decide
  have clean : '#' ∉ key ∧ '#' ∉ header := by decide
  obtain ⟨key_feed, header_feed, remark_feed, bracketed_feed⟩ := single
  have timed := remark_behind_line ended follows key_feed clean.1 remark_feed
  have headed := remark_behind_line ended follows header_feed clean.2 remark_feed
  have refused := remark_behind_line ended follows header_feed clean.2 bracketed_feed
  exact ⟨ended, follows,
    ⟨key_feed, clean.1, remark_feed, plain, timed.1 fun h => plain h.1⟩,
    ⟨header_feed, clean.2, remark_feed, opens, open', headed.2.1 opens open'⟩,
    ⟨bracketed_feed, closes, (refused.2.2 opens closes).2⟩⟩

/-- A header with a remark is no header: the key below it sets nothing. -/
theorem remarked_header_unread :
    let header := "[loopback]".toList
    let after := "\nenabled = false\n".toList
    '#' ∉ header ∧
      parse (header ++ after) = .ok { BusConfig.initial with loopback.enabled := false } ∧
      parse (remarked header " self-test".toList ++ after) = .ok .initial := by
  refine ⟨by decide, ?_, ?_⟩ <;> rfl

end Texts

end Joybus.Config
