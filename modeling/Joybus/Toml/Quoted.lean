import Joybus.Toml.Decimal
import Joybus.Toml.Failure

/-!
Strings of TOML. Each reader starts behind the opening quotes and stops behind the closing ones.
-/

namespace Joybus.Toml

/-- Whether a character may stand for itself in a string or comment: control characters other than
the tab may not. -/
def isPlain (c : Char) : Bool :=
  c = '\t' || (0x20 ≤ c.toNat && c.toNat ≠ 0x7F)

/-- The character that a letter stands for behind a backslash. -/
def escape? : Char → Option Char
  | 'b' => some '\x08'
  | 't' => some '\t'
  | 'n' => some '\n'
  | 'f' => some '\x0c'
  | 'r' => some '\r'
  | '"' => some '"'
  | '\\' => some '\\'
  | _ => none

/-- The character with the code point that hexadecimal digits denote. -/
def codePoint? (digits : List Char) : Option Char :=
  let n := inBase 16 digits
  if digits.all isHexDigit && n.isValidChar then some (Char.ofNat n) else none

/-- Puts a character in front of a text that was read, or stops if there is none. -/
def push (c : Option Char) (here : List Char) (read : Except Stop (List Char × List Char)) :
    Except Stop (List Char × List Char) :=
  match c with
  | some c => read.map fun (text, rest) => (c :: text, rest)
  | none => .error ⟨here, none⟩

/-- A character that stands for itself. -/
def plain? (c : Char) : Option Char := if isPlain c then some c else none

/-- A string between quotes, on one line. A backslash takes the next character with it, even a line
feed, before it is found to be no escape. -/
def basic : Reader (List Char)
  | '"' :: rest => .ok ([], rest)
  | here@('\\' :: 'u' :: a :: b :: c :: d :: rest) =>
    push (codePoint? [a, b, c, d]) here (basic rest)
  | here@('\\' :: 'U' :: a :: b :: c :: d :: e :: f :: g :: h :: rest) =>
    push (codePoint? [a, b, c, d, e, f, g, h]) here (basic rest)
  | '\\' :: '\n' :: rest => .error ⟨rest, none⟩
  | here@('\\' :: c :: rest) => push (escape? c) here (basic rest)
  | here@(c :: rest) => push (if c = '\\' then none else plain? c) here (basic rest)
  | [] => .error ⟨[], none⟩

/-- A string between apostrophes, on one line and without escapes. -/
def literal : Reader (List Char)
  | '\'' :: rest => .ok ([], rest)
  | here@(c :: rest) => push (plain? c) here (literal rest)
  | [] => .error ⟨[], none⟩

/-- How the next characters of a string over several lines are read. -/
inductive Mode where
  | text
  /-- Behind a backslash that ends its line, up to the line's end. -/
  | lineEnd
  /-- On from there: blanks and line ends are skipped. -/
  | skip
deriving DecidableEq, Repr

/-- A string between three quotes. One or two quotes may stand right before the closing ones. -/
def longBasic : Mode → Reader (List Char)
  | .lineEnd, '\n' :: rest => longBasic .skip rest
  | .lineEnd, '\r' :: '\n' :: rest => longBasic .skip rest
  | .lineEnd, ' ' :: rest => longBasic .lineEnd rest
  | .lineEnd, '\t' :: rest => longBasic .lineEnd rest
  | .lineEnd, here => .error ⟨here, none⟩
  | .skip, '\n' :: rest => longBasic .skip rest
  | .skip, '\r' :: '\n' :: rest => longBasic .skip rest
  | .skip, ' ' :: rest => longBasic .skip rest
  | .skip, '\t' :: rest => longBasic .skip rest
  | _, '"' :: '"' :: '"' :: '"' :: '"' :: rest => .ok (['"', '"'], rest)
  | _, '"' :: '"' :: '"' :: '"' :: rest => .ok (['"'], rest)
  | _, '"' :: '"' :: '"' :: rest => .ok ([], rest)
  | _, here@('\\' :: 'u' :: a :: b :: c :: d :: rest) =>
    push (codePoint? [a, b, c, d]) here (longBasic .text rest)
  | _, here@('\\' :: 'U' :: a :: b :: c :: d :: e :: f :: g :: h :: rest) =>
    push (codePoint? [a, b, c, d, e, f, g, h]) here (longBasic .text rest)
  | _, '\\' :: '\n' :: rest => longBasic .skip rest
  | _, '\\' :: '\r' :: '\n' :: rest => longBasic .skip rest
  | _, '\\' :: ' ' :: rest => longBasic .lineEnd rest
  | _, '\\' :: '\t' :: rest => longBasic .lineEnd rest
  | _, here@('\\' :: c :: rest) => push (escape? c) here (longBasic .text rest)
  | _, here@('\n' :: rest) => push (some '\n') here (longBasic .text rest)
  | _, here@('\r' :: '\n' :: rest) => push (some '\n') here (longBasic .text rest)
  | _, here@(c :: rest) => push (if c = '\\' then none else plain? c) here (longBasic .text rest)
  | _, [] => .error ⟨[], none⟩

/-- A string between three apostrophes. -/
def longLiteral : Reader (List Char)
  | '\'' :: '\'' :: '\'' :: '\'' :: '\'' :: rest => .ok (['\'', '\''], rest)
  | '\'' :: '\'' :: '\'' :: '\'' :: rest => .ok (['\''], rest)
  | '\'' :: '\'' :: '\'' :: rest => .ok ([], rest)
  | here@('\n' :: rest) => push (some '\n') here (longLiteral rest)
  | here@('\r' :: '\n' :: rest) => push (some '\n') here (longLiteral rest)
  | here@(c :: rest) => push (plain? c) here (longLiteral rest)
  | [] => .error ⟨[], none⟩

/-- A line end right behind the opening quotes of a string over several lines does not count. -/
def afterOpening : List Char → List Char
  | '\n' :: rest => rest
  | '\r' :: '\n' :: rest => rest
  | rest => rest

end Joybus.Toml
