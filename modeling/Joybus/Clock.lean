/-!
Fractional clock dividers: sixteen whole and eight fractional bits.
-/

namespace Joybus

/-- A divider of `whole + frac / 256`. -/
structure ClockDivider where
  whole : BitVec 16
  frac : BitVec 8
deriving DecidableEq, Repr

namespace ClockDivider

/-- The divider in units of 1/256. -/
def toBits (d : ClockDivider) : BitVec 24 := d.whole ++ d.frac

/-- The ratio of two clocks in units of 1/256, rounded down. It is multiplied first, in words twice
as wide as the clocks. -/
def ratio (source target : BitVec 32) : BitVec 64 :=
  source.setWidth 64 * 256 / target.setWidth 64

/-- Keeps a ratio between 1 and the largest divider. -/
def clamp (r : BitVec 64) : BitVec 64 :=
  if r < 256 then 256 else if 0xFFFFFF < r then 0xFFFFFF else r

/-- Splits a ratio into its parts. What does not fit them is cut off. -/
def ofRatio (r : BitVec 64) : ClockDivider where
  whole := (r >>> 8).setWidth 16
  frac := (r &&& 0xFF).setWidth 8

/-- The divider that turns a clock of `source` Hz into one of `target` Hz, rounded down to a
multiple of 1/256 and kept between 1 and the largest divider. No divider stops the clock, so the
largest stands for a target of zero. -/
def between (source target : BitVec 32) : ClockDivider :=
  if target = 0 then ⟨0xFFFF, 0xFF⟩ else ofRatio (clamp (ratio source target))

@[inherit_doc between]
def ofFrequencies (source target : Nat) : ClockDivider :=
  between (BitVec.ofNat 32 source) (BitVec.ofNat 32 target)

end ClockDivider

end Joybus
