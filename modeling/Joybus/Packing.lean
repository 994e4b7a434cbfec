import Joybus.Frame
import Joybus.Sample

/-!
How received words carry sampled bytes.
-/

namespace Joybus

/-- The number of sampled bytes read from one received word. -/
inductive Packing where
  | one
  | two
deriving DecidableEq, Repr, Inhabited

namespace Packing

def bytesPerWord : Packing → Nat
  | one => 1
  | two => 2

/-- The words it takes to receive `len` bytes. -/
def wordCount (p : Packing) (len : Nat) : Nat :=
  (len + p.bytesPerWord - 1) / p.bytesPerWord

/-- The samples of one of the bytes in a received word. With two bytes to a word those of the first
are in the upper 24 bits and those of the second in the lower 24, so that their windows overlap. -/
def window : Packing → Word → Nat → Word
  | two, w, 0 => w >>> 8
  | _, w, _ => w &&& 0xffffff

/-- Byte `i` of those that the received words carry. -/
def byte? (p : Packing) (words : List Word) (i : Nat) : Option Byte :=
  words[i / p.bytesPerWord]?.map fun w => Sample.decode (p.window w (i % p.bytesPerWord))

/-- The bytes from byte `i` on, `count` of them unless the words run out before. -/
def bytesFrom (p : Packing) (words : List Word) (i : Nat) : (count : Nat) → List Byte
  | 0 => []
  | count + 1 =>
    match p.byte? words i with
    | none => []
    | some b => b :: p.bytesFrom words (i + 1) count

/-- The frame of at most `len` bytes that the received words carry, shorter when they run out. What
the frame has no room for would be lost. -/
def decodeFrame (p : Packing) (words : List Word) (len : Nat) : Frame :=
  (Frame.empty.pushEach (p.bytesFrom words 0 (min len Frame.capacity))).2

end Packing

end Joybus
