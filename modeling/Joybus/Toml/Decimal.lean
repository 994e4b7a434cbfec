/-!
Digits, and decimal numbers as they are written.
-/

namespace Joybus.Toml

def isHexDigit (c : Char) : Bool :=
  c.isDigit || ('a' ≤ c && c ≤ 'f') || ('A' ≤ c && c ≤ 'F')

def digitValue (c : Char) : Nat :=
  if c.isDigit then c.toNat - '0'.toNat
  else if 'a' ≤ c then c.toNat - 'a'.toNat + 10
  else c.toNat - 'A'.toNat + 10

/-- The number that digits denote in a base. -/
def inBase (base : Nat) (digits : List Char) : Nat :=
  digits.foldl (fun n c => base * n + digitValue c) 0

/-- A number with at least so many digits, by zeros in front. -/
def padded (width n : Nat) : List Char :=
  let digits := Nat.toDigits 10 n
  List.replicate (width - digits.length) '0' ++ digits

/-- Takes off one sign. -/
def unsigned : List Char → List Char
  | '+' :: cs => cs
  | '-' :: cs => cs
  | cs => cs

def isNegative (text : List Char) : Bool := text.head? = some '-'

/-- A number with the sign that a text starts with. -/
def withSign (text : List Char) (n : Nat) : Int := if isNegative text then -n else n

/-- A decimal number as it is written: its digits without the point, and the power of ten they
count. -/
structure Decimal where
  negative : Bool
  digits : List Char
  exponent : Int
deriving DecidableEq, Repr

/-- A power of ten behind its mark, or none. -/
def plainPower? : List Char → Option Int
  | [] => some 0
  | mark :: rest =>
    let ds := unsigned rest
    if (mark = 'e' || mark = 'E') && !ds.isEmpty && ds.all Char.isDigit then
      some (withSign rest (inBase 10 ds))
    else none

/-- Reads a number in plain notation: digits with at most one point before, among or behind them,
and perhaps a power of ten. -/
def Decimal.ofText? (text : List Char) : Option Decimal := do
  let whole := (unsigned text).takeWhile Char.isDigit
  let (part, rest) := match (unsigned text).dropWhile Char.isDigit with
    | '.' :: rest => (rest.takeWhile Char.isDigit, rest.dropWhile Char.isDigit)
    | rest => ([], rest)
  let power ← plainPower? rest
  if whole.isEmpty && part.isEmpty then none
  else return ⟨isNegative text, whole ++ part, power - part.length⟩

end Joybus.Toml
