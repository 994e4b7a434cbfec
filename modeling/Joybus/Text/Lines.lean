/-!
Lines of a text.
-/

namespace Joybus.Text

/-- The lines of a text. A line ends at a line feed, and a carriage return right before it belongs
to the line's end. The last line need not be ended. -/
def lines : List Char → List (List Char)
  | [] => []
  | '\n' :: rest => [] :: lines rest
  | '\r' :: '\n' :: rest => [] :: lines rest
  | c :: rest =>
    match lines rest with
    | [] => [[c]]
    | line :: others => (c :: line) :: others

/-- Joins lines with line feeds between them. -/
def unlines (lines : List String) : String := "\n".intercalate lines

end Joybus.Text
