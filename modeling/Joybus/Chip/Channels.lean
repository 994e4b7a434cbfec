import Joybus.Chip.Dma

/-!
Claimed channels used on their own, without a transceiver: a rack of numbered slots, each empty or
holding a claimed channel, and the completion cells the channels report to.
-/

namespace Joybus.Chip

open Completion (Cells Status)
open Transceiver (Mark)

/-- Channels at work. -/
structure Rack where
  chip : Chip
  cells : Cells Unit := {}
  /-- The filled slots, by rising number. -/
  slots : List (Nat × Channel) := []
  /-- The directions claimed at some time. -/
  known : List Direction := []

/-- One use of the rack. -/
inductive Use where
  | claim (slot : Nat) (ch : ChannelId) (e : Endpoint)
  | start (slot : Nat) (t : Transfer)
  | abort (slot : Nat)
  | release (slot : Nat)
  /-- A channel ends its transfer. -/
  | complete (ch : ChannelId) (error : Bool)
  | enableQuietly (ch : ChannelId)
  /-- The service routine runs. -/
  | service
  /-- Consumes the report in a direction's cell. -/
  | take (d : Direction)
deriving DecidableEq, Repr

/-- What a use gives back. -/
inductive Yield where
  | nothing
  | claimed (k : Channel)
  /-- The direction has a channel already. -/
  | unavailable
  | emptySlot
  /-- The buffer of a receive after its start. -/
  | buffer (words : List Word)
  | status (s : Status)
deriving DecidableEq, Repr

namespace Rack
variable (r : Rack)

/-- Hands the chip's reports to the cells. -/
def settle (chip : Chip) : Rack :=
  let (marks, chip) := chip.takeReports
  { r with chip, cells := marks.foldl (fun cs m => cs.modify m.dir (.mark m.report)) r.cells }

def slot? (n : Nat) : Option Channel := (r.slots.find? (·.1 == n)).map (·.2)

/-- Empties a slot without touching its channel. -/
def clear (n : Nat) : Rack := { r with slots := r.slots.filter (·.1 != n) }

/-- Fills a slot. -/
def fill (n : Nat) (k : Channel) : Rack :=
  let others := r.slots.filter (·.1 != n)
  { r with slots := others.filter (·.1 < n) ++ (n, k) :: others.filter (n < ·.1) }

/-- Gives the slot's channel back, if there is one. -/
def release (n : Nat) : Rack :=
  match r.slot? n with
  | none => r
  | some k => (r.clear n).settle (r.chip.release k)

/-- The buffer of `count` zeros after `words` were written over its beginning. -/
def bufferOf (count : Nat) (words : List Word) : List Word :=
  words.take count ++ List.replicate (count - words.length) 0

/-- One use of the rack. A channel claimed for a slot replaces the one there, which is given back
after the claim. -/
def use : Use → Yield × Rack
  | .claim n ch e =>
    match r.chip.claim ch e with
    | none => (.unavailable, r)
    | some (k, chip) =>
      let next := { r.settle chip with known := e.dir :: r.known }
      (.claimed k, (next.release n).fill n k)
  | .start n t =>
    match r.slot? n with
    | none => (.emptySlot, r)
    | some k =>
      let (words, chip) := r.chip.start k t
      let yield := match t with
        | .fromMemory _ => .nothing
        | .toMemory count => .buffer (bufferOf count words)
      (yield, r.settle chip)
  | .abort n =>
    match r.slot? n with
    | none => (.emptySlot, r)
    | some k => (.nothing, r.settle (r.chip.abort k))
  | .release n => (.nothing, r.release n)
  | .complete ch error => (.nothing, r.settle (r.chip.complete ch error))
  | .enableQuietly ch => (.nothing, { r with chip := r.chip.enableQuietly ch })
  | .service => (.nothing, r.settle r.chip.service)
  | .take d =>
    if d ∈ r.known then
      (.status (r.cells.get d).status, { r with cells := r.cells.modify d .take })
    else (.nothing, r)

/-- Gives all channels back, by rising slot. -/
def releaseAll : Rack := (r.slots.map (·.1)).foldl release r

/-- The status of a direction's cell, unknown until the direction is claimed. -/
def status? (d : Direction) : Option Status :=
  if d ∈ r.known then some (r.cells.get d).status else none

def takeLog : List Access × Rack :=
  let (accesses, chip) := r.chip.takeLog
  (accesses, { r with chip })

end Rack

end Joybus.Chip
