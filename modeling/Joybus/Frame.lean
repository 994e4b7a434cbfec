import Joybus.Bits

/-!
Frames: the byte strings exchanged on the bus, never longer than any transfer mode can carry.
-/

namespace Joybus

/-- Why a byte string is no frame. -/
inductive FrameError where
  | tooLong
deriving DecidableEq, Repr

/-- A frame, possibly empty, of at most 32 bytes. -/
@[ext] structure Frame where
  bytes : List Byte
  length_le : bytes.length ≤ 32
deriving DecidableEq

namespace Frame

/-- The most bytes a frame holds. -/
def capacity : Nat := 32

def empty : Frame := ⟨[], by simp⟩

def length (f : Frame) : Nat := f.bytes.length

/-- The frame of the given bytes, refused beyond `capacity`. -/
def ofBytes (bytes : List Byte) : Except FrameError Frame :=
  if h : bytes.length ≤ 32 then .ok ⟨bytes, h⟩ else .error .tooLong

/-- Appends one byte; a full frame refuses it. -/
def push (f : Frame) (b : Byte) : Except FrameError Frame :=
  ofBytes (f.bytes ++ [b])

/-- Tries to append every byte in turn. The frame keeps those it had room for, and the verdict is
that of the last refusal, if any byte was refused. -/
def pushEach (f : Frame) : List Byte → Except FrameError Unit × Frame
  | [] => (.ok (), f)
  | b :: rest =>
    match f.push b with
    | .ok g => g.pushEach rest
    | .error e =>
      match f.pushEach rest with
      | (.ok _, g) => (.error e, g)
      | (.error later, g) => (.error later, g)

/-- Whether the bytes form a frame, and if so whether it is this one. -/
def equals? (f : Frame) (bytes : List Byte) : Option Bool :=
  match ofBytes bytes with
  | .ok g => some (f == g)
  | .error _ => none

end Frame

end Joybus
