/-!
Where and why reading a file in TOML fails.
-/

namespace Joybus.Toml

/-- What is wrong with the tables of a file whose statements are well formed. -/
inductive Clash where
  /-- A key is given again; the table that it belongs to is told if it is known by a header. -/
  | duplicate (key : String) (table : Option (List String))
  /-- A key leads into a value that is not a table. -/
  | notTable (path : List String) (kind : String)
deriving DecidableEq, Repr

namespace Clash

/-- A key as it is quoted. -/
def quote (key : String) : String := "`" ++ key ++ "`"

def message : Clash → String
  | duplicate key none => "duplicate key " ++ quote key
  | duplicate key (some []) => "duplicate key " ++ quote key ++ " in document root"
  | duplicate key (some table) =>
    "duplicate key " ++ quote key ++ " in table " ++ quote (".".intercalate table)
  | notTable path kind =>
    "dotted key " ++ quote (".".intercalate path) ++ " attempted to extend non-table type (" ++
      kind ++ ")"

end Clash

/-- The point where reading stopped, given by what is left of the text there. -/
structure Stop where
  rest : List Char
  clash : Option Clash := none
deriving DecidableEq, Repr

/-- A reader takes what it reads off the front of a text. -/
abbrev Reader (α : Type) := List Char → Except Stop (α × List Char)

/-- Stops here. -/
def stop {α : Type} (here : List Char) : Except Stop α := .error ⟨here, none⟩

/-- A failure as it is shown: the line it is on, with its number from 1, and what is wrong if that
quotes the file. -/
structure Failure where
  number : Nat
  line : List Char
  quotation : String
deriving DecidableEq, Repr

/-- The line of a text with a number from 0, without its line feed. -/
def lineAt : (index : Nat) → List Char → List Char
  | 0, text => text.takeWhile (· ≠ '\n')
  | index + 1, text => lineAt index ((text.dropWhile (· ≠ '\n')).drop 1)

namespace Failure

/-- The failure at the point of a text where so many characters are left. The end of the text
counts as its last character. -/
def locate (text : List Char) (left : Nat) (quotation : String) : Failure :=
  let index := (text.take (min (text.length - left) (text.length - 1))).count '\n'
  ⟨index + 1, lineAt index text, quotation⟩

/-- The part of the report of a failure that quotes the file. What else a report says is plain
ASCII. -/
def report (f : Failure) : List Char :=
  (toString f.number ++ " | ").toList ++ f.line ++ '\n' :: f.quotation.toList

end Failure

end Joybus.Toml
