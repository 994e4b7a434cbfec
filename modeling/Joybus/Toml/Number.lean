import Joybus.Toml.Failure
import Joybus.Toml.Value

/-!
Numbers of TOML. Integers have 64 bits with sign. A number is read as far as it goes, but a point,
an underscore and the mark of a power or a base must have digits behind them.
-/

namespace Joybus.Toml

/-- More digits, each with at most one underscore before it. -/
def moreDigits (isDigit : Char → Bool) : Reader (List Char)
  | [] => .ok ([], [])
  | ['_'] => stop []
  | '_' :: c :: rest =>
    if isDigit c then (moreDigits isDigit rest).map fun (ds, rest) => (c :: ds, rest)
    else stop (c :: rest)
  | c :: rest =>
    if isDigit c then (moreDigits isDigit rest).map fun (ds, rest) => (c :: ds, rest)
    else .ok ([], c :: rest)

/-- Digits with single underscores between them; gives the digits alone. -/
def digits (isDigit : Char → Bool) : Reader (List Char)
  | [] => stop []
  | c :: rest =>
    if isDigit c then (moreDigits isDigit rest).map fun (ds, rest) => (c :: ds, rest)
    else stop (c :: rest)

/-- The digits of a decimal number before the point. A zero in front is the only one. -/
def wholeDigits : Reader (List Char)
  | '0' :: rest => .ok (['0'], rest)
  | here => digits Char.isDigit here

/-- An integer that must have 64 bits with sign. -/
def within64 (here : List Char) (i : Int) : Except Stop Value :=
  if -9223372036854775808 ≤ i ∧ i ≤ 9223372036854775807 then .ok (.integer i) else stop here

/-- An integer behind the mark of its base. -/
def based (base : Nat) (isDigit : Char → Bool) : Reader Value := fun here => do
  let (ds, rest) ← digits isDigit here
  return (← within64 here (inBase base ds), rest)

/-- The digits behind the point, if there is one. -/
def fraction? : Reader (Option (List Char))
  | '.' :: rest => do
    let (ds, rest) ← digits Char.isDigit rest
    return (some ds, rest)
  | rest => .ok (none, rest)

/-- The power of ten behind its mark, if there is one. -/
def power? : Reader (Option Int)
  | [] => .ok (none, [])
  | mark :: rest =>
    if mark = 'e' || mark = 'E' then do
      let (ds, more) ← digits Char.isDigit (unsigned rest)
      return (some (withSign rest (inBase 10 ds)), more)
    else .ok (none, mark :: rest)

/-- A decimal number. It is a float if it has a fraction, a power of ten or both. It may be too far
below zero for a finite float, but not too far above. -/
def decimal : Reader Value := fun here => do
  let (whole, rest) ← wholeDigits (unsigned here)
  let (fraction, rest) ← fraction? rest
  let (power, rest) ← power? rest
  if fraction.isNone && power.isNone then
    return (← within64 here (withSign here (inBase 10 whole)), rest)
  else
    let part := fraction.getD []
    let d : Decimal := ⟨isNegative here, whole ++ part, power.getD 0 - part.length⟩
    match d.nearest with
    | .infinite false => stop here
    | x => return (.float x, rest)

/-- A number. -/
def number : Reader Value
  | '0' :: 'x' :: rest => based 16 isHexDigit rest
  | '0' :: 'o' :: rest => based 8 (fun c => '0' ≤ c && c ≤ '7') rest
  | '0' :: 'b' :: rest => based 2 (fun c => c = '0' || c = '1') rest
  | here =>
    match unsigned here with
    | 'i' :: 'n' :: 'f' :: rest => .ok (.float (.infinite (isNegative here)), rest)
    | 'n' :: 'a' :: 'n' :: rest => .ok (.float .nan, rest)
    | _ => decimal here

end Joybus.Toml
