/-!
How strings and keys of TOML are written. Of the ways to write a string the plainest one is taken
that needs no escapes.
-/

namespace Joybus.Toml

/-- Whether a character may stand in a key without quotes. -/
def isBareKeyChar (c : Char) : Bool := c.isAlphanum || c = '_' || c = '-'

/-- Whether a character can only be written as an escape. -/
def needsEscape (c : Char) : Bool :=
  (c.toNat < 0x20 && c ≠ '\t' && c ≠ '\n') || c.toNat = 0x7F

/-- A character other than a quote as it stands between quotes. Over several lines, line feeds stand
for themselves. -/
def spellChar (multiline : Bool) (c : Char) : List Char :=
  match c with
  | '\\' => ['\\', '\\']
  | '\n' => if multiline then ['\n'] else ['\\', 'n']
  | '\t' => ['\\', 't']
  | '\r' => ['\\', 'r']
  | '\x08' => ['\\', 'b']
  | '\x0c' => ['\\', 'f']
  | c =>
    if needsEscape c then
      let digits := Nat.toDigits 16 c.toNat
      '\\' :: 'u' :: List.replicate (4 - digits.length) '0' ++ digits
    else [c]

/-- Characters as they stand between quotes, behind a number of quotes that stand for themselves.
Over several lines two quotes in a row may do that, otherwise none. -/
def spellChars (multiline : Bool) : (quotes : Nat) → List Char → List Char
  | _, [] => []
  | quotes, '"' :: cs =>
    if multiline && quotes < 2 then '"' :: spellChars multiline (quotes + 1) cs
    else '\\' :: '"' :: spellChars multiline 0 cs
  | _, c :: cs => spellChar multiline c ++ spellChars multiline 0 cs

/-- The length of the longest run of a character. -/
def longestRun (c : Char) (cs : List Char) : Nat :=
  (cs.foldl (fun (run, longest) d =>
    let run := if d = c then run + 1 else 0
    (run, max run longest)) (0, 0)).2

/-- A text between opening and closing quotes. -/
def between (quotes : String) (cs : List Char) : String := quotes ++ .ofList cs ++ quotes

/-- A text between opening and closing quotes, which starts on a line of its own if it has
several. -/
def betweenThree (quotes : String) (cs : List Char) : String :=
  between quotes (if cs.contains '\n' then '\n' :: cs else cs)

/-- A text between quotes on one line. -/
def spellBasic (cs : List Char) : String := between "\"" (spellChars false 0 cs)

/-- A text between three quotes. -/
def spellLong (cs : List Char) : String := betweenThree "\"\"\"" (spellChars true 0 cs)

def spellString (s : String) : String :=
  let cs := s.toList
  let escapes := cs.any needsEscape
  let backslash := cs.contains '\\'
  let multiline := cs.contains '\n'
  let quotes := longestRun '"' cs
  let apostrophes := longestRun '\'' cs
  if !escapes && !backslash && !multiline && quotes = 0 then spellBasic cs
  else if !escapes && !multiline && apostrophes = 0 then between "'" cs
  else if !escapes && !backslash && quotes ≤ 2 then spellLong cs
  else if !escapes && apostrophes ≤ 2 then betweenThree "'''" cs
  else if multiline then spellLong cs
  else spellBasic cs

/-- A key: bare if it can be, else like a string on one line. -/
def spellKey (key : String) : String :=
  let cs := key.toList
  let plain := !cs.any fun c => needsEscape c || c = '\n'
  if !cs.isEmpty && cs.all isBareKeyChar then key
  else if plain && !cs.contains '\'' && (cs.contains '\\' || cs.contains '"') then between "'" cs
  else spellBasic cs

end Joybus.Toml
