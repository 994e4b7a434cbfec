/-!
Texts as bytes in UTF-8.
-/

namespace Joybus.Text

/-- The bytes of a text. -/
def bytes (cs : List Char) : List UInt8 := cs.flatMap String.utf8EncodeChar

/-- The text with the given bytes, if there is one. -/
def ofBytes? (bs : List UInt8) : Option (List Char) :=
  bs.toByteArray.utf8Decode?.map Array.toList

end Joybus.Text
