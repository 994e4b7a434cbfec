import Joybus.Chip.Pio
import Joybus.Selftest

/-!
The board: the transmit program on block 0 with DMA channel 0, the receive program on block 1 with
DMA channel 1. It is hardware for a transceiver, and runs the self-test.
-/

namespace Joybus

open Chip Transceiver

/-- The chip with the bus's programs and channels on it. -/
structure Board where
  chip : Chip
  txProgram : Program
  rxProgram : Program
  txChannel : Channel
  rxChannel : Channel

namespace Board

/-- Loads both programs, claims both channels and starts the programs, the receive program first so
that it misses nothing. The receive program fetches its bit counts itself. -/
def setup (script : Bench.Script) (timing : TimingConfig) : Board :=
  let divider := ClockDivider.ofFrequencies systemClock timing.pioClock
  let chip : Chip := { script }
  let (txProgram, chip) := chip.load ⟨0, 0⟩ .transmit { divider }
  let (rxProgram, chip) := chip.load ⟨1, 0⟩ .receive
    { divider, shiftOut := { ShiftConfig.transmit with auto := false } }
  let txChannel : Channel := ⟨0, txProgram.endpoint .tx⟩
  let rxChannel : Channel := ⟨1, rxProgram.endpoint .rx⟩
  let chip := (chip.route txChannel.id .tx).route rxChannel.id .rx
  let (rxProgram, chip) := rxProgram.start chip
  let (txProgram, chip) := txProgram.start chip
  { chip, txProgram, rxProgram, txChannel, rxChannel }

variable (b : Board)

def program : Direction → Program
  | .tx => b.txProgram
  | .rx => b.rxProgram

def channel : Direction → Channel
  | .tx => b.txChannel
  | .rx => b.rxChannel

/-- Ends a use of the chip: its reports are handed over. -/
def answer {α : Type} (a : α) (chip : Chip) : Response Board α :=
  let (marks, chip) := chip.takeReports
  ⟨a, marks, { b with chip }⟩

/-- Lets the direction's channel complete. -/
def completeMark (chip : Chip) (m : Mark) : Chip :=
  chip.complete (b.channel m.dir).id (m.report == .error)

/-- How the board carries out a command. -/
def respond : (c : Command) → Board → Response Board c.Answer
  | .flag d i, b =>
    let (value, chip) := (b.program d).readFlag b.chip i
    b.answer value chip
  | .clear d i, b => b.answer () ((b.program d).clearFlag b.chip i)
  | .notify d, b => b.answer () ((b.program d).notify b.chip)
  | .reset d, b => b.answer () ((b.program d).reset b.chip)
  | .push d w, b =>
    let (taken, chip) := (b.program d).push b.chip w
    b.answer taken chip
  | .pull d, b =>
    let (word, chip) := (b.program d).pull b.chip
    b.answer word chip
  | .startTx words, b =>
    let (_, chip) := b.chip.start b.txChannel (.fromMemory words)
    b.answer () chip
  | .startRx count, b =>
    let (words, chip) := b.chip.start b.rxChannel (.toMemory count)
    b.answer words chip
  | .abort d, b => b.answer () (b.chip.abort (b.channel d))

/-- One look at the delay: scripted reports are completions of the channels. -/
def pollDelay : Response Board Bool :=
  let r := b.chip.script.pollDelay
  b.answer r.answer (r.marks.foldl b.completeMark { b.chip with script := r.state })

/-- The board as the transceiver's hardware. -/
def hardware : Hardware Board where
  respond := respond
  capacity d b := (b.channel d).capacity
  programCounter d b := (b.program d).programCounter b.chip
  startDelay us b :=
    { b with chip := log { b.chip with script := b.chip.script.startDelay } (.delay us) }
  pollDelay := pollDelay
  interrupt m b := b.answer () (b.completeMark b.chip m)

/-- Gives both channels back. -/
def release : Response Board Unit :=
  b.answer () ((b.chip.release b.txChannel).release b.rxChannel)

def takeLog : List Access × Board :=
  let (accesses, chip) := b.chip.takeLog
  (accesses, { b with chip })

/-- Replaces parts of the script the chip follows. -/
def rescript (change : Bench.Change) : Board :=
  { b with chip.script := b.chip.script.change change }

/-- Drops the transceiver on the board, then gives its channels back. -/
def shutdown (s : Session Board) : World Board :=
  let w := (s.close hardware).world
  w.absorb w.hardware.release

/-- Logs a sleep of the self-test. -/
def logSleep (ms : Nat) (t : Selftest.Tally) : Board :=
  { b with chip := b.chip.log (.sleep ms t.passes.toNat t.failures.toNat) }

/-- Hands the transceiver to the self-test, for the given numbers of sleeps and fruitless polls.
When the self-test is dropped, so is the transceiver. -/
def selftest (s : Session Board) (timing : TimingConfig) (loopback : LoopbackConfig)
    (sleeps polls : Nat) : Selftest.Tally × World Board :=
  let setting : Selftest.Setting Board :=
    { hardware, onSleep := fun ms t b => b.logSleep ms t, link := s.config, timing, loopback }
  let (tally, w, _) := setting.run sleeps polls {} s.world
  (tally, shutdown { s with world := w })

end Board

end Joybus
