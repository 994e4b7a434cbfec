import Joybus.Toml.DateTable
import Joybus.Toml.Quoted
import Joybus.Toml.Scalar

/-!
Files in TOML. Keys belong to the table of the last header; no key may be given twice, no header
may open the same table twice, and a table between braces is complete. Nothing nests deeper than a
fixed limit.
-/

namespace Joybus.Toml

/-- Stops here on a clash. -/
def settle {α : Type} (here : List Char) (result : Except Clash α) : Except Stop α :=
  result.mapError fun c => ⟨here, some c⟩

/-- Skips blanks within a line. -/
def skipBlanks (cs : List Char) : List Char := cs.dropWhile fun c => c = ' ' || c = '\t'

/-- Skips the rest of a line that holds nothing more but a comment. -/
def endLine (cs : List Char) : Except Stop (List Char) :=
  let rest := match skipBlanks cs with
    | '#' :: comment => comment.dropWhile isPlain
    | rest => rest
  match rest with
  | [] => .ok []
  | '\n' :: more => .ok more
  | '\r' :: '\n' :: more => .ok more
  | here => stop here

/-- Skips blanks, comments and line ends within an array, as far as they go. -/
def skipFiller : (inComment : Bool) → List Char → Except Stop (List Char)
  | _, '\n' :: rest => skipFiller false rest
  | _, '\r' :: '\n' :: rest => skipFiller false rest
  | true, c :: rest => if isPlain c then skipFiller true rest else stop (c :: rest)
  | true, [] => stop []
  | false, ' ' :: rest => skipFiller false rest
  | false, '\t' :: rest => skipFiller false rest
  | false, '#' :: rest => skipFiller true rest
  | false, '\r' :: rest => stop ('\r' :: rest)
  | false, rest => .ok rest

/-- One part of a key. -/
def keyPart : Reader String
  | '"' :: rest => do
    let (text, rest) ← basic rest
    return (.ofList text, rest)
  | '\'' :: rest => do
    let (text, rest) ← literal rest
    return (.ofList text, rest)
  | cs =>
    match cs.takeWhile isBareKeyChar with
    | [] => stop cs
    | part => .ok (.ofList part, cs.dropWhile isBareKeyChar)

/-- Whether a key starts here. -/
def startsKey (cs : List Char) : Bool :=
  match skipBlanks cs with
  | [] => false
  | c :: _ => c = '"' || c = '\'' || isBareKeyChar c

/-- The parts of a key with dots between them: all parts but the last, and the last. A dot is taken
only if a part follows it. -/
def keyParts : (fuel : Nat) → Reader (List String × String)
  | 0, here => stop here
  | fuel + 1, cs => do
    let (part, rest) ← keyPart (skipBlanks cs)
    match skipBlanks rest with
    | '.' :: more =>
      if startsKey more then
        let ((path, last), rest) ← keyParts fuel more
        return ((part :: path, last), rest)
      else return (([], part), '.' :: more)
    | rest => return (([], part), rest)

/-- The most parts of a key, and the most brackets open at once within a value. -/
def maxDepth : Nat := 79

/-- A key, or nothing if there is none here or it has too many parts. -/
def key? (fuel : Nat) (cs : List Char) :
    Except Stop (Option ((List String × String) × List Char)) :=
  if startsKey cs then do
    let ((path, last), rest) ← keyParts fuel cs
    return if path.length < maxDepth then some ((path, last), rest) else none
  else .ok none

/-- A key that must be there. -/
def key (fuel : Nat) : Reader (List String × String) := fun cs => do
  match ← key? fuel cs with
  | some result => return result
  | none => stop cs

/-- Passes over one character that must be there. -/
def expect (c : Char) : List Char → Except Stop (List Char)
  | [] => stop []
  | d :: rest => if c = d then .ok rest else stop (d :: rest)

/-- A key with its node, still to be added to a table. -/
structure Pair where
  left : Nat
  path : List String
  key : String
  node : Node

/-- The table between braces that has some pairs. -/
def tableOfPairs (pairs : List Pair) : Except Clash Entries :=
  pairs.foldlM (fun t p => t.insert .braces none p.left p.path p.key p.node) []

mutual

/-- A value, with at most `room` brackets open at once. -/
def value : (fuel room : Nat) → Reader Node
  | 0, _, here => stop here
  | fuel + 1, room, here =>
    match here with
    | '"' :: '"' :: '"' :: rest => do
      let (text, rest) ← longBasic .text (afterOpening rest)
      return (.leaf (.string (.ofList text)), rest)
    | '"' :: rest => do
      let (text, rest) ← basic rest
      return (.leaf (.string (.ofList text)), rest)
    | '\'' :: '\'' :: '\'' :: rest => do
      let (text, rest) ← longLiteral (afterOpening rest)
      return (.leaf (.string (.ofList text)), rest)
    | '\'' :: rest => do
      let (text, rest) ← literal rest
      return (.leaf (.string (.ofList text)), rest)
    | '[' :: rest =>
      if room = 0 then stop here
      else do
        let (items, rest) ← items fuel (room - 1) rest
        return (.array items, rest)
    | '{' :: rest =>
      if room = 0 then stop here
      else do
        let (pairs, more) ← pairs fuel (room - 1) rest
        let entries ← settle rest (tableOfPairs pairs)
        return (.table .inline entries, ← expect '}' (skipBlanks more))
    | _ => do
      let (v, rest) ← scalar here
      return (.leaf v, rest)

/-- The items of an array, up to the closing bracket. An item whose filler behind it is not well
formed is no item. -/
def items : (fuel room : Nat) → Reader (List Node)
  | 0, _, here => stop here
  | fuel + 1, room, cs => do
    match ← skipFiller false cs with
    | ']' :: rest => return ([], rest)
    | here =>
      let (x, rest) ← value fuel room here
      match skipFiller false rest with
      | .error _ => stop here
      | .ok (']' :: rest) => return ([x], rest)
      | .ok (',' :: rest) =>
        let (xs, rest) ← items fuel room rest
        return (x :: xs, rest)
      | .ok rest => stop rest

/-- The pairs of a table between braces, as far as they go. A comma is taken only if a pair follows
it. -/
def pairs : (fuel room : Nat) → Reader (List Pair)
  | 0, _, here => stop here
  | fuel + 1, room, here => do
    match ← key? fuel here with
    | none => return ([], here)
    | some ((path, last), rest) =>
      let (x, rest) ← value fuel room (skipBlanks (← expect '=' rest))
      let pair : Pair := ⟨here.length, path, last, x⟩
      match skipBlanks rest with
      | ',' :: more =>
        match ← pairs fuel room more with
        | ([], _) => return ([pair], ',' :: more)
        | (others, rest) => return (pair :: others, rest)
      | rest => return ([pair], rest)

end

/-- A file read so far: its root table, and the header in force. -/
structure Draft where
  root : Entries := []
  header : List String := []

/-- Adds a node to the table of the header in force. -/
def Draft.insert (d : Draft) (left : Nat) (path : List String) (key : String) (n : Node) :
    Except Clash Draft := do
  let put (_ : Origin) (t : Entries) : Except Clash Entries :=
    t.insert .dotted (some d.header) left path key n
  return { d with root := ← d.root.change .header left put [] d.header .header }

/-- One header, or one key with its value, and the rest of its line. -/
def statement (fuel : Nat) (d : Draft) : Reader Draft := fun here =>
  match here with
  | '[' :: '[' :: rest => do
    let ((path, last), rest) ← key fuel rest
    let rest ← endLine (← expect ']' (← expect ']' rest))
    let root ← settle here (d.root.openItem here.length path last)
    return (⟨root, path ++ [last]⟩, rest)
  | '[' :: rest => do
    let ((path, last), rest) ← key fuel rest
    let rest ← endLine (← expect ']' rest)
    let root ← settle here (d.root.openTable here.length path last)
    return (⟨root, path ++ [last]⟩, rest)
  | _ => do
    let ((path, last), rest) ← key fuel here
    let (n, rest) ← value fuel maxDepth (skipBlanks (← expect '=' rest))
    let rest ← endLine rest
    return (← settle here (d.insert here.length path last n), rest)

/-- The statements of a file, at most one a line. -/
def statements : (fuel : Nat) → Draft → List Char → Except Stop Draft
  | 0, _, here => stop here
  | fuel + 1, d, cs =>
    match skipBlanks cs with
    | [] => .ok d
    | c :: rest => do
      if c = '#' || c = '\n' || c = '\r' then statements fuel d (← endLine (c :: rest))
      else
        let (d, rest) ← statement fuel d (c :: rest)
        statements fuel d rest

/-- Passes over a byte-order mark in front. -/
def skipMark : List Char → List Char
  | '\uFEFF' :: rest => rest
  | text => text

/-- Reads a file. Every step of reading takes at least one character off the text, so there are
never more steps nested than the fuel given here. -/
def read (text : List Char) : Except Failure Value :=
  match statements (2 * text.length + 4) {} (skipMark text) with
  | .error s => .error (.locate text s.rest.length (s.clash.elim "" Clash.message))
  | .ok d =>
    match (Node.table .header d.root).value with
    | .error left => .error (.locate text left "")
    | .ok v => .ok v

end Joybus.Toml
