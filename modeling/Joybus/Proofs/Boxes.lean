import Joybus.Config.Box
import Joybus.Proofs.Layout
import Mathlib.Data.List.Forall2

/-! Messages in a box: every line has a row of its own, and all rows are equally wide. A message has
no box only if a line is cut inside a character. -/
namespace Joybus.Config.Box

section Cuts
variable {line front text : List Char}

/-- A character has at least one byte. -/
theorem length_le_byteLength (text : List Char) : text.length ≤ byteLength text := by
  induction text with
  | nil => exact Nat.le_refl 0
  | cons c text ih =>
    have := c.utf8Size_pos
    rw [List.length_cons, byteLength]
    omega

/-- A text that is long enough is cut after `n` bytes, if a character ends there. -/
theorem cut?_eq_some_iff {n : Nat} (h : n ≤ byteLength line) :
    cut? n line = some front ↔ front <+: line ∧ byteLength front = n := by
  induction line generalizing n front with
  | nil =>
    obtain rfl : n = 0 := Nat.le_zero.1 h
    rw [cut?, Option.some_inj, List.prefix_nil]
    constructor
    · rintro rfl
      exact ⟨rfl, rfl⟩
    · exact fun h => h.1.symm
  | cons c line ih =>
    cases n with
    | zero =>
      rw [cut?, Option.some_inj]
      constructor
      · rintro rfl
        exact ⟨List.nil_prefix, rfl⟩
      · rintro ⟨-, empty⟩
        have := length_le_byteLength front
        exact (List.length_eq_zero_iff.1 (by omega)).symm
    | succ n =>
      rw [byteLength] at h
      have first : ∀ {front : List Char}, front <+: c :: line → byteLength front = n + 1 →
          ∃ rest, front = c :: rest ∧ rest <+: line ∧ c.utf8Size + byteLength rest = n + 1 := by
        intro front start bytes
        cases front with
        | nil => simp [byteLength] at bytes
        | cons d rest =>
          obtain ⟨rfl, behind⟩ := List.cons_prefix_cons.1 start
          exact ⟨rest, rfl, behind, bytes⟩
      have step : cut? (n + 1) (c :: line) =
          if c.utf8Size ≤ n + 1 then (cut? (n + 1 - c.utf8Size) line).map (c :: ·) else none := by
        rw [cut?]
        omega
      rw [step]
      split
      · next fits =>
        rw [Option.map_eq_some_iff]
        constructor
        · rintro ⟨rest, cut, rfl⟩
          obtain ⟨start, bytes⟩ := (ih (by omega)).1 cut
          exact ⟨List.cons_prefix_cons.2 ⟨rfl, start⟩, by rw [byteLength]; omega⟩
        · rintro ⟨start, bytes⟩
          obtain ⟨rest, rfl, start, bytes⟩ := first start bytes
          exact ⟨rest, (ih (by omega)).2 ⟨start, by omega⟩, rfl⟩
      · next wide =>
        simp only [reduceCtorEq, false_iff, not_and]
        intro start bytes
        obtain ⟨rest, rfl, -, bytes⟩ := first start bytes
        omega

/-- A line that is too long to be shown in full, and has a character on both sides of the cut. -/
def Severed (line : List Char) : Prop :=
  64 < byteLength line ∧ ∀ front, front <+: line → byteLength front ≠ 61

/-- What is shown of a line: all of it if it has at most 64 bytes, else its first 61 bytes and three
dots. -/
inductive Shown (line : List Char) : List Char → Prop
  | whole : byteLength line ≤ 64 → Shown line line
  | cut {front : List Char} : 64 < byteLength line → front <+: line → byteLength front = 61 →
      Shown line (front ++ ['.', '.', '.'])

theorem shorten?_eq_some_iff : shorten? line = some text ↔ Shown line text := by
  rw [shorten?]
  split
  · next long =>
    rw [Option.map_eq_some_iff]
    constructor
    · rintro ⟨front, cut, rfl⟩
      obtain ⟨start, bytes⟩ := (cut?_eq_some_iff (by omega)).1 cut
      exact .cut long start bytes
    · rintro (short | ⟨-, start, bytes⟩)
      · omega
      · exact ⟨_, (cut?_eq_some_iff (by omega)).2 ⟨start, bytes⟩, rfl⟩
  · next short =>
    rw [Option.some_inj]
    constructor
    · rintro rfl
      exact .whole (Nat.le_of_not_lt short)
    · rintro (- | ⟨long, -, -⟩)
      · rfl
      · exact absurd long short

theorem shorten?_eq_none_iff : shorten? line = none ↔ Severed line := by
  have unshown : shorten? line = none ↔ ∀ text, ¬ Shown line text := by
    rw [Option.eq_none_iff_forall_ne_some]
    exact forall_congr' fun text => not_congr shorten?_eq_some_iff
  rw [unshown]
  constructor
  · intro none
    have long : 64 < byteLength line := Nat.lt_of_not_le fun short => none line (.whole short)
    exact ⟨long, fun front start bytes => none _ (.cut long start bytes)⟩
  · rintro ⟨long, severed⟩ text (short | ⟨-, start, bytes⟩)
    · omega
    · exact severed _ start bytes

/-- No more is shown than a row has room for. -/
theorem Shown.length_le (h : Shown line text) : text.length ≤ 64 := by
  cases h with
  | whole short => exact (length_le_byteLength line).trans short
  | @cut front _ _ bytes =>
    have := length_le_byteLength front
    rw [List.length_append, List.length_cons, List.length_cons, List.length_cons, List.length_nil]
    omega

theorem Shown.clear (h : Shown line text) (clear : '\n' ∉ line) : '\n' ∉ text := by
  cases h with
  | whole => exact clear
  | cut _ start _ => simpa using fun mem => clear (start.subset mem)

end Cuts

section Rows
variable {line row : List Char} {lines rows : List (List Char)}

/-- The row of a line: what is shown of it between the rules of the box, 69 characters in all. -/
structure Boxed (line row : List Char) : Prop where
  shown : ∃ text, Shown line text ∧
    row = ['║', ' ', ' '] ++ text ++ List.replicate (64 - text.length) ' ' ++ [' ', '║']
  width : row.length = 69

theorem quoted_boxed {text : List Char} (h : Shown line text) :
    Boxed line (quoted (.ofList text)).toList := by
  have row : (quoted (.ofList text)).toList =
      ['║', ' ', ' '] ++ text ++ List.replicate (64 - text.length) ' ' ++ [' ', '║'] := by
    simp [quoted, pad]
  refine ⟨⟨text, h, row⟩, ?_⟩
  have := h.length_le
  rw [row]
  simp only [List.length_append, List.length_cons, List.length_nil, List.length_replicate]
  omega

/-- A row ends with the rule on its right. -/
theorem Boxed.ends (h : Boxed line row) : ∃ rest, row = rest ++ ['║'] := by
  obtain ⟨text, -, rfl⟩ := h.shown
  exact ⟨['║', ' ', ' '] ++ text ++ List.replicate (64 - text.length) ' ' ++ [' '], by simp⟩

theorem Boxed.clear (h : Boxed line row) (clear : '\n' ∉ line) : '\n' ∉ row := by
  obtain ⟨text, shown, rfl⟩ := h.shown
  simpa using shown.clear clear

theorem not_mem_lines {text : List Char} (h : line ∈ Text.lines text) : '\n' ∉ line := by
  induction text using row_induction with
  | last row clear =>
    by_cases empty : row = []
    · subst empty
      simp [Text.lines] at h
    · rw [lines_last clear empty, List.mem_singleton] at h
      exact h ▸ clear
  | cons row rest clear ih =>
    obtain ⟨first, same, split⟩ := lines_row clear
    rw [split, List.mem_cons] at h
    rcases h with rfl | h
    · rcases same with rfl | rfl
      · exact clear
      · simpa using clear
    · exact ih h

/-- The rows of some lines are the lines of the text they are joined to. -/
theorem lines_joined (h : List.Forall₂ Boxed lines rows) (clear : ∀ line ∈ lines, '\n' ∉ line) :
    Text.lines (['\n'].intercalate rows) = rows := by
  induction h with
  | nil => rfl
  | @cons line row lines rows boxed rest ih =>
    have feed : '\n' ∉ row := boxed.clear (clear line List.mem_cons_self)
    obtain ⟨front, rule⟩ := boxed.ends
    cases rest with
    | nil =>
      have alone : ['\n'].intercalate [row] = row := by simp [List.intercalate]
      rw [alone, lines_last feed (by simp [rule])]
    | @cons line' row' lines rows boxed' rest =>
      obtain ⟨row'', same, split⟩ := lines_row feed
      -- the rule stands where a carriage return would belong to the line's end
      obtain rfl : row = row'' := by
        rcases same with rfl | rfl
        · rfl
        · exact absurd (List.append_inj' rule rfl).2 (by decide)
      rw [List.intercalate_cons_cons, List.append_assoc, List.singleton_append, split,
        ih fun line mem => clear line (List.mem_cons_of_mem _ mem)]

end Rows

section Messages
variable {α β : Type} {f : α → Option β} {as : List α} {bs : List β}

theorem forall₂_of_mapM (h : as.mapM f = some bs) :
    List.Forall₂ (fun a b => f a = some b) as bs := by
  induction as generalizing bs with
  | nil =>
    obtain rfl := Option.some_inj.1 h
    exact .nil
  | cons a as ih =>
    simp only [List.mapM_cons, Option.bind_eq_bind, Option.pure_def, Option.bind_eq_some_iff,
      Option.some_inj] at h
    obtain ⟨b, first, bs, rest, rfl⟩ := h
    exact .cons first (ih rest)

theorem exists_of_mapM_none (h : as.mapM f = none) : ∃ a ∈ as, f a = none := by
  induction as with
  | nil => cases h
  | cons a as ih =>
    cases first : f a with
    | none => exact ⟨a, List.mem_cons_self, first⟩
    | some b =>
      cases rest : as.mapM f with
      | none =>
        obtain ⟨a', mem, none⟩ := ih rest
        exact ⟨a', List.mem_cons_of_mem _ mem, none⟩
      | some bs => simp [List.mapM_cons, first, rest] at h

/-- The row of a line, if the line is not severed. -/
def row? (line : List Char) : Option String := (shorten? line).map fun t => quoted (.ofList t)

theorem row?_eq_none_iff {line : List Char} : row? line = none ↔ Severed line := by
  rw [row?, Option.map_eq_none_iff, shorten?_eq_none_iff]

theorem row?_boxed {line : List Char} {row : String} (h : row? line = some row) :
    Boxed line row.toList := by
  obtain ⟨text, shown, rfl⟩ := Option.map_eq_some_iff.1 h
  exact quoted_boxed (shorten?_eq_some_iff.1 shown)

/-- A message is boxed line by line: every line has a row of 69 characters, which shows all of it if
it has at most 64 bytes, and nothing but line feeds stands between the rows. The one exception is a
message with a line of more than 64 bytes whose byte 61 is inside a character: it has no box. -/
theorem message_boxed_unless_severed (message : List Char) :
    match quote? message with
    | none => ∃ line ∈ Text.lines message, Severed line
    | some text => (∀ line ∈ Text.lines message, ¬ Severed line) ∧
        List.Forall₂ Boxed (Text.lines message) (Text.lines text.toList) ∧
        text.toList = ['\n'].intercalate (Text.lines text.toList) := by
  have boxed : quote? message = ((Text.lines message).mapM row?).map Text.unlines := by
    rw [Option.map_eq_bind]
    rfl
  rw [boxed]
  cases mapped : (Text.lines message).mapM row? with
  | none =>
    obtain ⟨line, mem, none⟩ := exists_of_mapM_none mapped
    exact ⟨line, mem, row?_eq_none_iff.1 none⟩
  | some rows =>
    have each := forall₂_of_mapM mapped
    have whole : List.Forall₂ (fun line row => ¬ Severed line ∧ row? line = some row)
        (Text.lines message) rows := by
      refine each.imp fun line row found => ⟨?_, found⟩
      rw [← row?_eq_none_iff, found]
      exact Option.some_ne_none row
    have framed : List.Forall₂ Boxed (Text.lines message) (rows.map String.toList) :=
      List.forall₂_map_right_iff.2 (each.imp fun _ _ => row?_boxed)
    have text : (Text.unlines rows).toList = ['\n'].intercalate (rows.map String.toList) :=
      String.toList_intercalate
    have split : Text.lines (Text.unlines rows).toList = rows.map String.toList := by
      rw [text]
      exact lines_joined framed fun line => not_mem_lines
    refine ⟨((List.forall₂_and_left ..).1 whole).1, ?_, ?_⟩
    · rw [split]
      exact framed
    · rw [split]
      exact text

/-- A line that is cut inside a character leaves the whole message without a box. -/
theorem severed_unboxed :
    let line := List.replicate 60 'a' ++ "épée".toList
    Severed line ∧ quote? line = none := by
  intro line
  have severed : shorten? line = none := by decide
  exact ⟨shorten?_eq_none_iff.1 severed, by decide⟩

end Messages

end Joybus.Config.Box
