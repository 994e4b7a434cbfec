import Joybus.Toml.Binary64
import Joybus.Toml.Datetime

/-!
Values of configuration files in TOML.
-/

namespace Joybus.Toml

inductive Value where
  | bool (b : Bool)
  | integer (i : Int)
  | float (x : Binary64)
  | datetime (d : Datetime)
  | string (s : String)
  | array (items : List Value)
  | table (entries : List (String × Value))
deriving Repr

/-- The entries of a table, in order. -/
abbrev Table := List (String × Value)

def Table.get? (t : Table) (key : String) : Option Value := (t.find? (·.1 == key)).map (·.2)

namespace Value

/-- The entries of a value; only tables have any. -/
def entries : Value → Table
  | .table entries => entries
  | _ => []

def isTable : Value → Bool
  | .table _ => true
  | _ => false

/-- The name of a value's kind. -/
def kind : Value → String
  | .bool _ => "boolean"
  | .integer _ => "integer"
  | .float _ => "float"
  | .datetime _ => "datetime"
  | .string _ => "string"
  | .array _ => "array"
  | .table _ => "inline table"

end Value

end Joybus.Toml
