import Joybus.Frame

/-!
The word stream of a transmitted frame: a header with the number of bits less one, then the bytes
packed four to a word, the first byte in the most significant place, the last word filled with
zeros.
-/

namespace Joybus.WordStream

/-- The longest stream: a header and eight payload words. -/
def capacity : Nat := 9

/-- The header for a frame of `len` bytes: its number of bits less one, and zero for no bytes. -/
def header (len : Nat) : Word :=
  BitVec.ofNat 32 (8 * len - 1)

/-- Four bytes in one word, the first in the most significant place. -/
def word (a b c d : Byte) : Word :=
  a ++ b ++ c ++ d

/-- The payload words of a byte string. -/
def payload : List Byte → List Word
  | [] => []
  | [a] => [word a 0 0 0]
  | [a, b] => [word a b 0 0]
  | [a, b, c] => [word a b c 0]
  | a :: b :: c :: d :: rest => word a b c d :: payload rest

/-- The stream that makes the transmit program send `bytes`. Nothing is sent for no bytes. A byte
string longer than `limit`, or than any frame, is refused. -/
def encode (bytes : List Byte) (limit : Nat) : Except FrameError (List Word) :=
  if min limit Frame.capacity < bytes.length then .error .tooLong
  else if bytes.isEmpty then .ok []
  else .ok (header bytes.length :: payload bytes)

theorem length_payload (bytes : List Byte) : (payload bytes).length = (bytes.length + 3) / 4 := by
  fun_induction payload bytes with
  | case5 a b c d rest ih =>
    simp only [List.length_cons, ih]
    omega
  | _ => simp

/-- The stream of a frame fits into the buffer that it is staged in. -/
theorem length_encode {bytes : List Byte} {limit : Nat} {words : List Word}
    (he : encode bytes limit = .ok words) : words.length ≤ capacity := by
  unfold encode at he
  split at he
  · cases he
  rename_i fits
  simp only [Frame.capacity] at fits
  split at he
  · cases he
    exact Nat.zero_le _
  · cases he
    simp only [List.length_cons, length_payload, capacity]
    omega

end Joybus.WordStream
