import Joybus.Toml.Decimal

/-!
Floats of 64 bits. A decimal number stands for the float nearest to it, and a float is written with
the fewest digits that stand for it.
-/

namespace Joybus.Toml

/-- A float. The magnitude of a finite one counts the least positive float. -/
inductive Binary64 where
  | nan
  | infinite (negative : Bool)
  | finite (negative : Bool) (units : Nat)
deriving DecidableEq, Repr

/-- How many of the least positive float make one. -/
def unitsPerOne : Nat := Nat.pow 2 1074

/-- The distance from a magnitude to the next float above it: 53 bits are kept. -/
def spacing (units : Nat) : Nat := Nat.pow 2 (units.log2 - 52)

/-- The whole number nearest to a quotient, the even one of two. -/
def roundDiv (n d : Nat) : Nat :=
  let q := n / d
  let twice := 2 * (n % d)
  if d < twice || (twice = d && q % 2 = 1) then q + 1 else q

/-- The float nearest to a decimal number. A number that has too many digits before the point, or
too many zeros behind it, is not computed. -/
def Decimal.nearest (d : Decimal) : Binary64 :=
  let ds := d.digits.dropWhile (· = '0')
  let size : Int := ds.length + d.exponent
  if ds.isEmpty || size < -330 then .finite d.negative 0
  else if 310 < size then .infinite d.negative
  else
    let above := inBase 10 ds * Nat.pow 10 d.exponent.toNat * unitsPerOne
    let below := Nat.pow 10 (-d.exponent).toNat
    let step := spacing (above / below)
    let units := roundDiv above (below * step) * step
    if units < Nat.pow 2 1024 * unitsPerOne then .finite d.negative units
    else .infinite d.negative

/-- A number of units, each a power of ten. -/
structure Scaled where
  count : Nat
  exponent : Int
deriving DecidableEq, Repr

/-- The multiple of a power of ten that is nearest to a magnitude, the upper one of two, if it
stands for it: if it is no further off than halfway to the next floats. Halfway itself belongs to
the float whose last bit is zero. All is measured in quarters of a unit. -/
def multiple? (units : Nat) (exponent : Int) : Option Scaled :=
  let step := spacing units
  let even := units / step % 2 = 0
  let low := 4 * units - (if units = step * Nat.pow 2 52 && 1 < step then step else 2 * step)
  let high := 4 * units + 2 * step
  let one := 4 * unitsPerOne * Nat.pow 10 exponent.toNat
  let scale := Nat.pow 10 (-exponent).toNat
  let fits (count : Nat) : Bool :=
    if even then low * scale ≤ count * one && count * one ≤ high * scale
    else low * scale < count * one && count * one < high * scale
  let count := 4 * units * scale / one
  if fits (count + 1) && (!fits count || (2 * count + 1) * one ≤ 8 * units * scale) then
    some ⟨count + 1, exponent⟩
  else if fits count then some ⟨count, exponent⟩
  else none

/-- The decimal number with the fewest digits that stands for a positive magnitude. All floats are
below ten to the 309, and no two are closer to each other than ten to the -324. -/
def shortest (units : Nat) : Scaled :=
  ((List.range 634).findSome? fun (i : Nat) => multiple? units (309 - i)).getD
    ⟨units * Nat.pow 5 1074, -1074⟩

/-- A number in positional notation, with at least one digit on either side of the point. -/
def Scaled.positional (s : Scaled) : List Char :=
  if 0 ≤ s.exponent then
    Nat.toDigits 10 s.count ++ List.replicate s.exponent.toNat '0' ++ ['.', '0']
  else
    let places := (-s.exponent).toNat
    let digits := padded (places + 1) s.count
    digits.take (digits.length - places) ++ '.' :: digits.drop (digits.length - places)

namespace Binary64

/-- A float as it is written. -/
def spell : Binary64 → String
  | nan => "nan"
  | infinite negative => if negative then "-inf" else "inf"
  | finite negative units =>
    let magnitude := if units = 0 then ['0', '.', '0'] else (shortest units).positional
    .ofList (if negative then '-' :: magnitude else magnitude)

/-- Reads a float in plain notation, or one of the special floats by its name. -/
def ofText? (text : String) : Option Binary64 :=
  let cs := text.toList
  let name := String.ofList ((unsigned cs).map Char.toLower)
  if name = "nan" then some nan
  else if name = "inf" || name = "infinity" then some (infinite (isNegative cs))
  else (Decimal.ofText? cs).map Decimal.nearest

end Binary64

end Joybus.Toml
