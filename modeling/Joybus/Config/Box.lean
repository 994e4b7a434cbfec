import Joybus.Text.Lines

/-!
Boxes around error messages.
-/

namespace Joybus.Config.Box

/-- Fills a text with spaces up to a number of characters. -/
def pad (width : Nat) (s : String) : String :=
  s ++ String.ofList (List.replicate (width - s.length) ' ')

/-- The double line on the sides of a box. -/
def rule (left right : Char) : String :=
  String.ofList (left :: List.replicate 66 '═' ++ [right])

def top : String := rule '╔' '╗'

def divider : String := rule '╠' '╣'

def bottom : String := rule '╚' '╝'

/-- A line of a fixed message. -/
def line (s : String) : String := "║  " ++ pad 64 s ++ "║"

/-- A line of a list. -/
def item (s : String) : String := "║  • " ++ pad 62 s ++ " ║"

/-- The line that names the cause of a failure. -/
def cause (s : String) : String := "║  Error: " ++ pad 56 s ++ " ║"

/-- A line of a message from elsewhere. -/
def quoted (s : String) : String := "║  " ++ pad 64 s ++ " ║"

/-- The first `n` bytes of a text, `none` if they end inside a character. -/
def cut? : (n : Nat) → List Char → Option (List Char)
  | 0, _ => some []
  | _, [] => some []
  | n, c :: rest => if c.utf8Size ≤ n then (cut? (n - c.utf8Size) rest).map (c :: ·) else none

/-- The number of bytes of a text. -/
def byteLength : List Char → Nat
  | [] => 0
  | c :: rest => c.utf8Size + byteLength rest

/-- A line as it is quoted: one of more than 64 bytes is cut after 61 and ends in three dots.
`none` if the cut would fall inside a character. -/
def shorten? (cs : List Char) : Option (List Char) :=
  if 64 < byteLength cs then (cut? 61 cs).map (· ++ ['.', '.', '.']) else some cs

/-- The lines of a message, each in its row of the box. -/
def quote? (message : List Char) : Option String := do
  let rows ← (Text.lines message).mapM fun cs => (shorten? cs).map fun t => quoted (.ofList t)
  return Text.unlines rows

end Joybus.Config.Box
