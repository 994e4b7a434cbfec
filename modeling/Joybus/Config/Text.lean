import Joybus.Config.Number
import Joybus.Config.Setting
import Joybus.Text.Blank
import Joybus.Text.Lines

/-!
Configuration text: one key, header or comment a line. Unknown keys and lines that are none of the
three are passed over; an unknown section is an error, and so is a value that does not fit its key.
-/

namespace Joybus.Config

/-- Why a text is no configuration. -/
inductive TextError where
  | invalidSection
  | invalidValue
  | unsupportedVersion
deriving DecidableEq, Repr

/-- What a line says. -/
inductive Line where
  /-- Nothing: it is blank, a comment, or neither a header nor a pair. -/
  | nothing
  | header (name : List Char)
  | pair (key value : List Char)
deriving DecidableEq, Repr

namespace Line

/-- Cuts a value before the first `#`, unless an odd number of quotes stands before it: then the
`#` is part of a string. -/
def uncomment (value : List Char) : List Char :=
  let before := value.takeWhile (· ≠ '#')
  if before.count '"' % 2 = 0 then Text.trim before else value

/-- Reads a trimmed line as a key and a value around the first `=`. -/
def readPair (line : List Char) : Line :=
  match line.dropWhile (· ≠ '=') with
  | [] => nothing
  | _ :: rest =>
    let key := Text.trim (line.takeWhile (· ≠ '='))
    let value := uncomment (Text.trim rest)
    if key.isEmpty || value.isEmpty then nothing else pair key value

def read (raw : List Char) : Line :=
  let line := Text.trim raw
  match line with
  | [] => nothing
  | '#' :: _ => nothing
  | '[' :: rest =>
    if rest.getLast? = some ']' then header (Text.trim rest.dropLast) else readPair line
  | _ => readPair line

end Line

/-- What cannot be read is an invalid value. -/
def orInvalid {α : Type} : Option α → Except TextError α
  | some a => .ok a
  | none => .error .invalidValue

/-- Reads a number of `w` bits. Underscores are skipped wherever they stand; what is left is at most
24 bytes long: a plus sign or none, then one digit or more. -/
def readNumber (w : Nat) (value : List Char) : Except TextError (BitVec w) := do
  let scratch ← orInvalid (Scratch.gather? {} (Text.bytes value))
  let text ← orInvalid (Text.ofBytes? scratch.filled)
  orInvalid (unsigned? w text)

/-- Takes the quotes off a value that stands between two. -/
def unquote (value : List Char) : List Char :=
  match value with
  | '"' :: rest => if rest.getLast? = some '"' then rest.dropLast else value
  | _ => value

def readSwitch (value : List Char) : Option Bool :=
  if value = "true".toList then some true
  else if value = "false".toList then some false
  else none

def readMode (value : List Char) : Option TransferMode :=
  if unquote value = "dma".toList then some .dma
  else if unquote value = "fifo".toList then some .fifo
  else none

/-- The receive program delivers one byte to a word, so only that packing can be configured. -/
def readPacking (value : List Char) : Option Packing :=
  if unquote value = "one".toList then some .one else none

/-- Sets one setting from the text of its value. -/
def Setting.assign (s : Setting) (value : List Char) (c : BusConfig) :
    Except TextError BusConfig := do
  match s with
  | version => return { c with version := (← readNumber 8 value).toNat }
  | mode => return { c with link.mode := ← orInvalid (readMode value) }
  | packing => return { c with link.packing := ← orInvalid (readPacking value) }
  | busTurnTimeout => return { c with link.busTurnTimeout := (← readNumber 32 value).toNat }
  | pollInterval => return { c with link.pollInterval := (← readNumber 32 value).toNat }
  | pioClock => return { c with timing.pioClock := (← readNumber 32 value).toNat }
  | rxSettle => return { c with timing.rxSettle := (← readNumber 32 value).toNat }
  | txTimeout => return { c with timing.txTimeout := (← readNumber 32 value).toNat }
  | rxTimeout => return { c with timing.rxTimeout := (← readNumber 32 value).toNat }
  | enabled => return { c with loopback.enabled := ← orInvalid (readSwitch value) }
  | interval => return { c with loopback.interval := (← readNumber 32 value).toNat }
  | interFrame => return { c with loopback.interFrame := (← readNumber 32 value).toNat }

/-- What is known after some lines: the section in force and the configuration so far. -/
structure Reading where
  place : Section := .root
  config : BusConfig := .initial
deriving DecidableEq, Repr

/-- Takes in one line. -/
def Reading.step (r : Reading) : Line → Except TextError Reading
  | .nothing => .ok r
  | .header name =>
    match Section.ofName? name with
    | some s => .ok { r with place := s }
    | none => .error .invalidSection
  | .pair key value =>
    match Setting.find? r.place key with
    | none => .ok r
    | some s =>
      match s.assign value r.config with
      | .ok c => .ok { r with config := c }
      | .error e => .error e

/-- The configuration after the last line. -/
def Reading.finish (r : Reading) : Except TextError BusConfig :=
  if r.config.version = BusConfig.supportedVersion then .ok r.config
  else .error .unsupportedVersion

/-- Takes in lines in order, up to the first error. -/
def Reading.steps (r : Reading) : List (List Char) → Except TextError Reading
  | [] => .ok r
  | raw :: rest =>
    match r.step (.read raw) with
    | .ok next => next.steps rest
    | .error e => .error e

/-- Reads a configuration text. What it leaves out keeps its initial value. -/
def parse (text : List Char) : Except TextError BusConfig :=
  match Reading.steps {} (Text.lines text) with
  | .ok r => r.finish
  | .error e => .error e

end Joybus.Config
