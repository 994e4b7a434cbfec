import Joybus.Transceiver.Session

/-!
The loopback self-test. With the two pins joined, every frame sent comes back; each pass exchanges
a fixed set of frames, compares them and counts the pass as good or bad. One frame is longer than
the engine carries, and a pass expects its refusal then.
-/

namespace Joybus.Selftest

open Transceiver (Call Ending ExchangeError Hardware Outcome Session Trace World)

/-- The frames of a pass. -/
def frames : List (List Byte) := [
  [0xA5],
  [0xFF],
  [0x00],
  [0xA5, 0x5A],
  [0x78, 0x56, 0x34, 0x12],
  [0x12, 0x34, 0x56, 0x78],
  [0x89, 0xAB, 0xCD, 0xEF],
  [0x12, 0x34, 0x56, 0x78, 0x9A],
  [0x12, 0x34, 0x56, 0x78, 0x9A, 0xBC, 0xDE, 0xF0, 0x12, 0x34],
  [0x01, 0x12, 0x23, 0x34, 0x45, 0x56, 0x67, 0x78, 0x89, 0x9A, 0xAB],
  [0x01, 0x12, 0x23, 0x34, 0x45, 0x56, 0x67, 0x78, 0x89, 0x9A, 0xAB, 0xBC],
  [0x01, 0x12, 0x23, 0x34, 0x45, 0x56, 0x67, 0x78, 0x89, 0x9A, 0xAB, 0xBC, 0xCD],
  [0x01, 0x12, 0x23, 0x34, 0x45, 0x56, 0x67, 0x78, 0x89, 0x9A, 0xAB, 0xBC, 0xCD, 0xDE],
  [0x01, 0x12, 0x23, 0x34, 0x45, 0x56, 0x67, 0x78, 0x89, 0x9A, 0xAB, 0xBC, 0xCD, 0xDE, 0xEF],
  [0x01, 0x12, 0x23, 0x34, 0x45, 0x56, 0x67, 0x78, 0x89, 0x9A, 0xAB, 0xBC, 0xCD, 0xDE, 0xEF, 0xF0],
  [0x01, 0x12, 0x23, 0x34, 0x45, 0x56, 0x67, 0x78, 0x89, 0x9A, 0xAB, 0xBC, 0xCD, 0xDE, 0xEF, 0xF0,
    0x01]]

/-- How the exchange of one frame went. -/
inductive Check where
  | matched
  | mismatched
  /-- The frame is too long for the link and was refused. -/
  | refused
  | failed
deriving DecidableEq, Repr

def Check.good : Check → Bool
  | matched | refused => true
  | mismatched | failed => false

/-- Judges an exchange of `bytes` over a link that carries at most `limit`. -/
def judge (limit : Nat) (bytes : List Byte) : Except ExchangeError Frame → Check
  | .ok received =>
    if limit < bytes.length then .failed
    else if received.bytes = bytes then .matched
    else .mismatched
  | .error (.tx .frameTooLong) => if limit < bytes.length then .refused else .failed
  | .error _ => .failed

/-- The counts of good and bad passes, which wrap at 32 bits. -/
structure Tally where
  passes : BitVec 32 := 0
  failures : BitVec 32 := 0
deriving DecidableEq, Repr

/-- Counts one pass. -/
def Tally.count (t : Tally) (good : Bool) : Tally :=
  if good then { t with passes := t.passes + 1 } else { t with failures := t.failures + 1 }

/-- One thing the self-test did. -/
inductive Entry where
  | checked (bytes : List Byte) (result : Except ExchangeError Frame) (trace : Trace)
  /-- The exchange of a frame was cut. -/
  | cut (bytes : List Byte) (trace : Trace)
  | counted (good : Bool)
  | slept (ms : Nat) (t : Tally)

/-- Where the self-test stands: the frames left in this pass, and whether all went well so far. -/
structure Stage where
  left : List (List Byte) := frames
  good : Bool := true
  tally : Tally := {}

/-- What the self-test runs with. `onSleep` tells the hardware of a sleep of some milliseconds. -/
structure Setting (σ : Type) where
  hardware : Hardware σ
  onSleep : Nat → Tally → σ → σ
  link : LinkConfig
  timing : TimingConfig
  loopback : LoopbackConfig

variable {σ : Type}

namespace Setting
variable (s : Setting σ)

/-- One deadline covers both halves of an exchange. -/
def timeout : Nat := max s.timing.txTimeout s.timing.rxTimeout

/-- The exchange that checks a frame. -/
def exchange (bytes : List Byte) : Call (Except ExchangeError Frame) :=
  Transceiver.exchange s.link bytes bytes.length s.timeout

def sleep (ms : Nat) (t : Tally) (w : World σ) : World σ :=
  { w with hardware := s.onSleep ms t w.hardware }

/-- Runs the self-test, which never ends by itself: the first `sleeps` sleeps end at once and the
next one never, and it is dropped after `polls` fruitless polls. Gives the tally, the world and all
entries, oldest first. -/
def run : (sleeps polls : Nat) → Stage → World σ → Tally × World σ × List Entry
  | sleeps, polls, ⟨bytes :: left, good, tally⟩, w =>
    let o := (s.exchange bytes).drive s.hardware w polls
    match o.value with
    | .dropped => (tally, o.world, [.cut bytes o.trace])
    | .finished result polls =>
      let ms := s.loopback.interFrame
      let w := s.sleep ms tally o.world
      let entries := [.checked bytes result o.trace, .slept ms tally]
      let good := good && (judge s.link.maxFrameBytes bytes result).good
      match sleeps with
      | 0 => (tally, w, entries)
      | sleeps + 1 =>
        let (last, w, rest) := run sleeps polls ⟨left, good, tally⟩ w
        (last, w, entries ++ rest)
  | sleeps, polls, ⟨[], good, tally⟩, w =>
    let tally := tally.count good
    let ms := s.loopback.interval
    let w := s.sleep ms tally w
    let entries := [.counted good, .slept ms tally]
    match sleeps with
    | 0 => (tally, w, entries)
    | sleeps + 1 =>
      let (last, w, rest) := run sleeps polls { tally } w
      (last, w, entries ++ rest)

end Setting

end Joybus.Selftest
