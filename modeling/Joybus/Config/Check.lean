import Joybus.Config.Box
import Joybus.Config.Setting
import Joybus.Toml.Document

/-!
The check of a configuration file before it is built in. The firmware itself falls back to its
initial configuration when it cannot read the file, so that mistakes have to be found here.
-/

namespace Joybus.Config

open Toml (Table Value)

/-- What is wrong with a configuration. -/
inductive Complaint where
  | notTable (s : Section)
  | unknownMode
  | unknownPacking
  | wrongClock
  | notSwitch
  | outOfRange (s : Setting) (least most : Nat)
  | notInteger (s : Setting)
deriving DecidableEq, Repr

/-- The clock the bit programs are timed for, in Hz. -/
def requiredClock : Nat := 4000000

namespace Complaint

/-- A complaint about a setting, with its section and key in front. -/
def about (s : Setting) (text : String) : String := s!"[{s.home.name}] {s.key} must be {text}"

def message : Complaint → String
  | notTable s => s!"[{s.name}] must be a table"
  | unknownMode => about .mode "'dma' or 'fifo'"
  | unknownPacking => about .packing "'one'"
  | wrongClock => about .pioClock (toString requiredClock)
  | notSwitch => about .enabled "true or false"
  | outOfRange s least most => about s s!"{least}-{most}"
  | notInteger s => about s "an integer"

end Complaint

/-- Checks a setting that must be a whole number within bounds, if it is there. -/
def checkRange (s : Setting) (least most : Nat) (t : Table) : List Complaint :=
  match t.get? s.key with
  | none => []
  | some (.integer i) => if least ≤ i ∧ i ≤ most then [] else [.outOfRange s least most]
  | some _ => [.notInteger s]

/-- Checks a setting that must be one of some words, if it is there. -/
def checkWord (s : Setting) (words : List String) (c : Complaint) (t : Table) : List Complaint :=
  match t.get? s.key with
  | none => []
  | some (.string w) => if w ∈ words then [] else [c]
  | some _ => [c]

/-- The programs are timed for one clock. What is not a whole number passes. -/
def checkClock (t : Table) : List Complaint :=
  match t.get? Setting.pioClock.key with
  | some (.integer i) => if i = requiredClock then [] else [.wrongClock]
  | _ => []

def checkSwitch (t : Table) : List Complaint :=
  match t.get? Setting.enabled.key with
  | none => []
  | some (.bool _) => []
  | some _ => [.notSwitch]

/-- The checks of a section's table. -/
def checkSection (t : Table) : Section → List Complaint
  | .root => []
  | .transceiver =>
    checkWord .mode ["dma", "fifo"] .unknownMode t ++
    checkWord .packing ["one"] .unknownPacking t ++
    checkRange .busTurnTimeout 100 1000000 t ++
    checkRange .pollInterval 1 1000 t
  | .timing =>
    checkClock t ++
    checkRange .rxSettle 0 10000 t ++
    checkRange .txTimeout 100 1000000 t ++
    checkRange .rxTimeout 100 1000000 t
  | .loopback =>
    checkSwitch t ++
    checkRange .interval 10 3600000 t ++
    checkRange .interFrame 0 60000 t

/-- All complaints about a configuration, section by section. A section may be missing. -/
def complaints (root : Table) : List Complaint :=
  Section.headed.flatMap fun s =>
    match root.get? s.name with
    | none => []
    | some (.table t) => checkSection t s
    | some _ => [.notTable s]

/-- Why a configuration file is refused. -/
inductive Refusal where
  | notFound
  /-- The file is not text. -/
  | unreadable
  /-- The text is not TOML. -/
  | malformed
  /-- The text is not TOML, and the place cannot be shown: its line is cut inside a character. -/
  | unreportable
  | invalid (first : Complaint) (others : List Complaint)
deriving DecidableEq, Repr

/-- Checks the contents of a configuration file. -/
def checkTable (root : Table) : Except Refusal Unit :=
  match complaints root with
  | [] => .ok ()
  | c :: cs => .error (.invalid c cs)

/-- Checks the text of a configuration file. A root that is a date has no sections, so that there
is nothing to complain of. -/
def checkText (text : String) : Except Refusal Unit :=
  match Toml.read text.toList with
  | .error f => .error (if (Box.quote? f.report).isSome then .malformed else .unreportable)
  | .ok root => checkTable root.entries

/-- Checks a configuration file, given by its bytes if there is one. -/
def checkFile (file : Option ByteArray) : Except Refusal Unit :=
  match file with
  | none => .error .notFound
  | some bytes =>
    match String.fromUTF8? bytes with
    | none => .error .unreadable
    | some text => checkText text

/-- What the check says about a file that passes. -/
def approval : String := "bus.toml validated successfully"

/-- The boxed message of a refusal. How a malformed text is malformed is for the reader of TOML to
say, so there is none for it. -/
def Refusal.message? : Refusal → Option String
  | notFound => some <| Text.unlines [
      Box.top,
      Box.line "ERROR: bus.toml not found!",
      Box.line "",
      Box.line "The firmware embeds bus.toml from the joywire-firmware",
      Box.line "directory. Restore it or create a new one.",
      Box.bottom]
  | unreadable => some <| Text.unlines [
      Box.top,
      Box.line "ERROR: Failed to read bus.toml",
      Box.line "",
      Box.cause "stream did not contain valid UTF-8",
      Box.bottom]
  | malformed | unreportable => none
  | invalid first others => some <| Text.unlines (
      [Box.top, Box.line "ERROR: Invalid bus configuration", Box.divider] ++
      (first :: others).map (fun c => Box.item c.message) ++
      [Box.bottom])

end Joybus.Config
