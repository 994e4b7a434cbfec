import Joybus.Transceiver.Hardware

/-!
The log of what a run did to the hardware, one line per command and per delay.
-/

namespace Joybus.Bench

open Transceiver (Command Event Trace)

/-- Words in decimal, in brackets. -/
def wordList (words : List Word) : String :=
  "[" ++ ", ".intercalate (words.map (toString ·.toNat)) ++ "]"

/-- A word in decimal, or `none`. -/
def optionalWord : Option Word → String
  | some w => toString w.toNat
  | none => "none"

/-- A command with its answer, less the name of the side it goes to. -/
def commandText : (c : Command) → c.Answer → String
  | .flag _ i, b => s!"flag {i} {b}"
  | .clear _ i, _ => s!"clear {i}"
  | .notify _, _ => "notify"
  | .reset _, _ => "reset"
  | .push _ w, b => s!"push {w.toNat} {b}"
  | .pull _, w => s!"pull {optionalWord w}"
  | .startTx ws, _ => s!"start_tx {wordList ws}"
  | .startRx n, _ => s!"start_rx {n}"
  | .abort _, _ => "abort"

/-- The line of an event, if it is one the hardware notices. -/
def eventLine? : Event → Option String
  | .acted (.command c) answer => some s!"{c.side.name}.{commandText c answer}"
  | .delayed us => some s!"delay {us}"
  | .acted _ _ | .marked _ _ | .consumed _ => none

def log (t : Trace) : List String := t.filterMap eventLine?

end Joybus.Bench
