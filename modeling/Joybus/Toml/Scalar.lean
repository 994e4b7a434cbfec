import Joybus.Toml.Number

/-!
Values of TOML that are one word: numbers, dates and truth values. A word is read as far as it goes;
the reader of what follows decides whether that may follow.
-/

namespace Joybus.Toml

/-- A date or a time that must be there. -/
def datetime : Reader Value := fun here =>
  match datetime? here with
  | some (d, rest) => .ok (.datetime d, rest)
  | none => stop here

/-- A number, a date or a truth value. -/
def scalar : Reader Value
  | 't' :: 'r' :: 'u' :: 'e' :: rest => .ok (.bool true, rest)
  | 'f' :: 'a' :: 'l' :: 's' :: 'e' :: rest => .ok (.bool false, rest)
  | here => if startsDate here || startsTime here then datetime here else number here

end Joybus.Toml
