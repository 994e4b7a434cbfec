import Joybus.Chip.State

/-!
DMA channels for the bus. A claimed channel's interrupts go to line 1, whose service routine
reports each completion to the cell of the channel's direction. At most one channel is claimed per
direction.
-/

namespace Joybus.Chip

open Completion (Report)

/-- The FIFO a channel serves: its register, the number of its pacing signal, and which way words
go. -/
structure Endpoint where
  addr : Nat
  dreq : Byte
  dir : Direction
deriving DecidableEq, Repr

/-- The number of the signal by which a state machine's FIFO paces a channel. It has eight bits. -/
def dreq (block machine : Nat) (d : Direction) : Byte :=
  BitVec.ofNat 8 (block * 8 + (match d with | .tx => 0 | .rx => 4) + machine)

/-- A claimed channel. -/
structure Channel where
  id : ChannelId
  endpoint : Endpoint
deriving DecidableEq, Repr

/-- The most words the channel moves at once. -/
def Channel.capacity (k : Channel) : Nat :=
  match k.endpoint.dir with
  | .tx => WordStream.capacity
  | .rx => Transceiver.rxCapacity

/-- The bit of a channel in the interrupt registers. -/
def mask (ch : ChannelId) : Word := BitVec.twoPow 32 ch

variable (c : Chip)

def claimed : Direction → Option ChannelId
  | .tx => c.txClaim
  | .rx => c.rxClaim

def setClaim (d : Direction) (ch : Option ChannelId) : Chip :=
  match d with
  | .tx => { c with txClaim := ch }
  | .rx => { c with rxClaim := ch }

def setChannel (ch : ChannelId) (s : ChannelState) : Chip :=
  { c with channels := c.channels.set ch s }

def writeEnable0 (value : Word) : Chip :=
  log { c with enable0 := value } (.writeEnables 0 value)

def writeEnable1 (value : Word) : Chip :=
  log { c with enable1 := value } (.writeEnables 1 value)

/-- Acknowledges interrupts of line 1: their raw bits are cleared. -/
def acknowledge (m : Word) : Chip :=
  log { c with raw := c.raw &&& ~~~m } (.acknowledge 1 m)

/-- Reports a pending completion of the direction's channel to its cell. -/
def report (pending : Word) (d : Direction) : Chip :=
  match c.claimed d with
  | none => c
  | some ch =>
    if pending.getLsbD ch then
      let r : Report := if c.channels[ch].error then .error else .done
      { c with reports := c.reports ++ [⟨d, r⟩] }
    else c

/-- The service routine of line 1: reports every pending completion of a claimed channel, then
acknowledges all that was pending. -/
def service : Chip :=
  let pending := c.raw &&& c.enable1
  ((c.report pending .tx).report pending .rx).acknowledge pending

/-- A channel ends its transfer. Its raw interrupt is raised, and the service routine runs if any
interrupt is pending on line 1. -/
def complete (ch : ChannelId) (error : Bool) : Chip :=
  let c := { c.setChannel ch ⟨false, error⟩ with raw := c.raw ||| mask ch }
  if c.raw &&& c.enable1 = 0 then c else (c.log .interrupt).service

/-- Moves a channel's interrupts to line 1. -/
def route (ch : ChannelId) (d : Direction) : Chip :=
  let c := c.setClaim d (some ch)
  let c := c.writeEnable0 (c.enable0 &&& ~~~mask ch)
  let c := c.acknowledge (mask ch)
  c.writeEnable1 (c.enable1 ||| mask ch)

/-- Claims a channel for the endpoint's direction, unless that direction has one. -/
def claim (ch : ChannelId) (e : Endpoint) : Option (Channel × Chip) :=
  match c.claimed e.dir with
  | some _ => none
  | none => some (⟨ch, e⟩, c.route ch e.dir)

/-- Stops a channel at once. A stop may complete the channel spuriously. -/
def halt (ch : ChannelId) : Chip :=
  let c := c.log (.abort (mask ch))
  let c := if c.script.spurious then c.complete ch false else c
  c.setChannel ch { c.channels[ch] with busy := false }

/-- Stops a channel's transfer. Its interrupt is kept off the line meanwhile, so that a spurious
completion is acknowledged unseen. -/
def abort (k : Channel) : Chip :=
  let c := c.writeEnable1 (c.enable1 &&& ~~~mask k.id)
  let c := c.halt k.id
  let c := c.acknowledge (mask k.id)
  c.writeEnable1 (c.enable1 ||| mask k.id)

/-- Gives a channel back: it is stopped, its interrupt disabled and its direction free again. -/
def release (k : Channel) : Chip :=
  let c := c.abort k
  let c := c.writeEnable1 (c.enable1 &&& ~~~mask k.id)
  c.setClaim k.endpoint.dir none

/-- What a channel is started on. -/
inductive Transfer where
  /-- Words from memory go to the endpoint. -/
  | fromMemory (words : List Word)
  /-- Words from the endpoint go to a buffer of `count` words. -/
  | toMemory (count : Nat)
deriving DecidableEq, Repr

namespace Transfer

def count : Transfer → Nat
  | fromMemory words => words.length
  | toMemory count => count

/-- Where a transfer reads and where it writes. -/
def ends (t : Transfer) (e : Endpoint) : Address × Address :=
  match t with
  | fromMemory _ => (.memory, .ofNat e.addr)
  | toMemory _ => (.ofNat e.addr, .memory)

end Transfer

/-- Writes a channel's registers, the trigger last. The channel walks through memory on the side
that its direction says, whatever it is started on. -/
def arm (k : Channel) (t : Transfer) : Chip :=
  let ends := t.ends k.endpoint
  let c := c.log (.readAddress k.id ends.1)
  let c := c.log (.writeAddress k.id ends.2)
  let c := c.log (.transferCount k.id t.count)
  let c := c.log
    (.trigger k.id k.endpoint.dreq (k.endpoint.dir == .tx) (k.endpoint.dir == .rx))
  c.setChannel k.id ⟨true, false⟩

/-- Moves the words of a started transfer, which works only in the channel's own direction. Gives
the words written to the buffer. -/
def move (k : Channel) (t : Transfer) : List Word × Chip :=
  match k.endpoint.dir, t with
  | .tx, .fromMemory words => ([], c.log (.take k.id words))
  | .rx, .toMemory count =>
    let (words, script) := c.script.deliver
    (words.take count, { c with script })
  | .tx, .toMemory _ | .rx, .fromMemory _ => ([], c)

/-- Lets a started transfer meet the fate its direction's script holds. -/
def meetFate (k : Channel) : Chip :=
  let (fate, script) := c.script.start k.endpoint.dir
  let c := { c with script }
  match fate with
  | .done => c.complete k.id false
  | .error => c.complete k.id true
  | .never => c

/-- Starts a channel. Gives the words it writes to the buffer. -/
def start (k : Channel) (t : Transfer) : List Word × Chip :=
  let (words, c) := (c.arm k t).move k t
  (words, c.meetFate k)

/-- The enable bit of a channel on line 1 is set by someone else, unseen. -/
def enableQuietly (ch : ChannelId) : Chip := { c with enable1 := c.enable1 ||| mask ch }

end Joybus.Chip
