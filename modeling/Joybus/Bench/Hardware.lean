import Joybus.Bench.Script

/-!
Hardware that follows a script.
-/

namespace Joybus.Bench

open Transceiver (Command Hardware Mark Response)

/-- The reports of an engine of direction `d` whose transfer meets the given fate at once. -/
def Fate.marks (f : Fate) (d : Direction) : List Mark :=
  (f.report?.map (⟨d, ·⟩)).toList

/-- How the script answers a command. A started transfer reports within the command. -/
def respond : (c : Command) → Script → Response Script c.Answer
  | .flag d _, s => ⟨(s.readFlag d).1, [], (s.readFlag d).2⟩
  | .push d _, s => ⟨(s.push d).1, [], (s.push d).2⟩
  | .pull d, s => ⟨(s.pull d).1, [], (s.pull d).2⟩
  | .startTx _, s => ⟨(), (s.start .tx).1.marks .tx, (s.start .tx).2⟩
  | .startRx _, s =>
    let (words, s) := s.deliver
    ⟨words, (s.start .rx).1.marks .rx, (s.start .rx).2⟩
  | .clear _ _, s | .notify _, s | .reset _, s | .abort _, s => ⟨(), [], s⟩

/-- Scripted hardware. -/
def bench : Hardware Script where
  respond := respond
  capacity d s := (s.side d).capacity
  programCounter d s := (s.side d).programCounter
  startDelay _ s := s.startDelay
  pollDelay s := s.pollDelay
  interrupt m s := ⟨(), [m], s⟩

end Joybus.Bench
