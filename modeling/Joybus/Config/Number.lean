import Joybus.Text.Bytes

/-!
Numbers in a configuration text: the buffer in which the bytes of one are gathered, and the number
of so many bits that digits stand for.
-/

namespace Joybus.Config

/-- A buffer of 24 bytes, of which the first `used` are filled. -/
structure Scratch where
  cells : Vector UInt8 24 := Vector.replicate 24 0
  used : Nat := 0
  used_le : used ≤ 24 := by decide

namespace Scratch

def filled (s : Scratch) : List UInt8 := s.cells.toList.take s.used

/-- Fills one more cell; a full buffer refuses it. -/
def push? (s : Scratch) (b : UInt8) : Option Scratch :=
  if h : s.used < 24 then some ⟨s.cells.set s.used b, s.used + 1, h⟩ else none

/-- Takes in bytes in order, but for underscores. -/
def gather? (s : Scratch) : List UInt8 → Option Scratch
  | [] => some s
  | b :: rest =>
    if b = '_'.toUInt8 then s.gather? rest
    else
      match s.push? b with
      | none => none
      | some s => s.gather? rest

end Scratch

variable {w : Nat}

/-- Appends a decimal digit to a number, as long as the number has room for it. -/
def appendDigit? (n : BitVec w) (c : Char) : Option (BitVec w) :=
  let digit := BitVec.ofNat w (c.toNat - '0'.toNat)
  if !c.isDigit || n.umulOverflow 10 || (n * 10).uaddOverflow digit then none
  else some (n * 10 + digit)

/-- The number that a plus sign or none and then one digit or more stand for. -/
def unsigned? (w : Nat) (text : List Char) : Option (BitVec w) :=
  let digits := match text with
    | '+' :: rest => rest
    | _ => text
  if digits.isEmpty then none else digits.foldlM appendDigit? 0

end Joybus.Config
