import Joybus.Toml.Spelling
import Joybus.Toml.Value

/-!
Writing a table of TOML as a file. The values of a table come first, then the tables and arrays of
tables within, each under its header; all else is written in place.
-/

namespace Joybus.Toml

mutual

/-- A value written in place. -/
def Value.inPlace : Value → String
  | .bool b => if b then "true" else "false"
  | .integer i => toString i
  | .float x => x.spell
  | .datetime d => d.spell
  | .string s => spellString s
  | .array items => "[" ++ ", ".intercalate (itemsInPlace items) ++ "]"
  | .table [] => "\x7b\x7d"
  | .table entries => "\x7b " ++ ", ".intercalate (entriesInPlace entries) ++ " \x7d"

def itemsInPlace : List Value → List String
  | [] => []
  | v :: vs => v.inPlace :: itemsInPlace vs

def entriesInPlace : List (String × Value) → List String
  | [] => []
  | e :: es => entryInPlace e :: entriesInPlace es

def entryInPlace : String × Value → String
  | (key, v) => spellKey key ++ " = " ++ v.inPlace

end

/-- Whether a value has headers: a table, or an array of nothing but tables. -/
def Value.isHeaded : Value → Bool
  | .table _ => true
  | .array [] => false
  | .array items => items.all Value.isTable
  | _ => false

/-- The lines for the entries of a table that have no headers. -/
def ownLines (t : Table) : List String :=
  (t.filter fun e => !e.2.isHeaded).map entryInPlace

def headerPath (path : List String) : String := ".".intercalate (path.map spellKey)

mutual

/-- The blocks of lines under the headers of a value at a path. A table with nothing but tables in
it needs no header of its own. -/
def Value.blocks (path : List String) : Value → List (List String)
  | .table [] => [["[" ++ headerPath path ++ "]"]]
  | .table entries =>
    match ownLines entries with
    | [] => innerBlocks path entries
    | own => (("[" ++ headerPath path ++ "]") :: own) :: innerBlocks path entries
  | .array items => itemBlocks path items
  | _ => []

def itemBlocks (path : List String) : List Value → List (List String)
  | [] => []
  | .table entries :: vs =>
    (("[[" ++ headerPath path ++ "]]") :: ownLines entries) :: innerBlocks path entries ++
      itemBlocks path vs
  | _ :: vs => itemBlocks path vs

def innerBlocks (path : List String) : List (String × Value) → List (List String)
  | [] => []
  | e :: es => entryBlocks path e ++ innerBlocks path es

def entryBlocks (path : List String) : String × Value → List (List String)
  | (key, v) => if v.isHeaded then v.blocks (path ++ [key]) else []

end

/-- A table as a file, with a blank line before each header but the first. -/
def print (t : Table) : String :=
  let blocks := match ownLines t with
    | [] => innerBlocks [] t
    | own => own :: innerBlocks [] t
  "\n".intercalate (blocks.map fun b => String.join (b.map (· ++ "\n")))

end Joybus.Toml
