import Joybus.Bench.Log
import Joybus.Chip.State

/-!
Log lines of accesses to the chip.
-/

namespace Joybus.Chip

def Machine.name (m : Machine) : String := s!"pio{m.block}.sm{m.index}"

def shiftText (s : ShiftConfig) : String :=
  let direction := match s.direction with
    | .left => "Left"
    | .right => "Right"
  s!"{direction}/{s.auto}/{s.threshold}"

def Role.pinText : Role → String
  | transmit => "set_pins"
  | receive => "in_pins"

def Address.text : Address → String
  | memory => "mem"
  | register n => toString n

def Access.line : Access → String
  | loadProgram b n => s!"pio{b}.load_program len={n}"
  | claimPin b p => s!"pio{b}.make_pio_pin {p}"
  | pullUp p => s!"pin{p}.set_pull Up"
  | configure m origin role p o i d =>
    s!"{m.name}.set_config program {origin} side_set [] {role.pinText} [{p}] " ++
      s!"out {shiftText o} in {shiftText i} div {d.toNat}"
  | latchLow m p => s!"{m.name}.set_pins Low [{p}]"
  | releasePin m p => s!"{m.name}.set_pin_dirs In [{p}]"
  | enable m on => s!"{m.name}.set_enable {on}"
  | clearFifos m => s!"{m.name}.clear_fifos"
  | restart m => s!"{m.name}.restart"
  | jump m a => s!"{m.name}.exec_jmp {a}"
  | push m w taken => s!"{m.name}.push {w.toNat} {taken}"
  | pull m w => s!"{m.name}.pull {Bench.optionalWord w}"
  | readFlag b i v => s!"pio{b}.irq.check {i} {v}"
  | clearFlag b i => s!"pio{b}.irq.clear {i}"
  | setFlag b i => s!"pio{b}.irq.set {i}"
  | writeEnables l v => s!"dma.inte{l} = {v.toNat}"
  | acknowledge l m => s!"dma.ints{l} clear {m.toNat}"
  | abort m => s!"dma.chan_abort {m.toNat}"
  | readAddress ch a => s!"dma.ch{ch.val}.read_addr = {a.text}"
  | writeAddress ch a => s!"dma.ch{ch.val}.write_addr = {a.text}"
  | transferCount ch n => s!"dma.ch{ch.val}.trans_count = {n}"
  | trigger ch request r w =>
    s!"dma.ch{ch.val}.ctrl_trig treq={request.toNat} size=SIZE_WORD " ++
      s!"incr_read={r} incr_write={w} chain_to={ch.val} clear_errors=true en=true"
  | take ch ws => s!"dma.ch{ch.val} reads {Bench.wordList ws}"
  | interrupt => "DMA_IRQ_1"
  | delay us => s!"delay {us}"
  | sleep ms p f => s!"sleep {ms} passes {p} failures {f}"

end Joybus.Chip
