import Joybus.Bits
import Joybus.Frame
import Joybus.Sample
import Joybus.WordStream
import Joybus.Packing
import Joybus.Direction
import Joybus.Completion
import Joybus.Clock
import Joybus.Shift
import Joybus.Text.Blank
import Joybus.Text.Lines
import Joybus.Text.Bytes
import Joybus.Toml.Value
import Joybus.Toml.Number
import Joybus.Toml.Datetime
import Joybus.Toml.Scalar
import Joybus.Toml.Failure
import Joybus.Toml.Quoted
import Joybus.Toml.Spelling
import Joybus.Toml.Tree
import Joybus.Toml.DateTable
import Joybus.Toml.Document
import Joybus.Toml.Printer
import Joybus.Config.Basic
import Joybus.Config.Setting
import Joybus.Config.Number
import Joybus.Config.Text
import Joybus.Config.Embedded
import Joybus.Config.Box
import Joybus.Config.Check
import Joybus.Transceiver.State
import Joybus.Transceiver.Budget
import Joybus.Transceiver.Action
import Joybus.Transceiver.Call
import Joybus.Transceiver.Send
import Joybus.Transceiver.Receive
import Joybus.Transceiver.Hardware
import Joybus.Transceiver.Poll
import Joybus.Transceiver.Session
import Joybus.Bench.Script
import Joybus.Bench.Hardware
import Joybus.Bench.Log
import Joybus.Selftest
import Joybus.Button
import Joybus.Chip.State
import Joybus.Chip.Dma
import Joybus.Chip.Pio
import Joybus.Chip.Channels
import Joybus.Chip.Board
import Joybus.Chip.Log
import Joybus.Proofs.Reports
import Joybus.Proofs.Ensures
import Joybus.Proofs.Sides
import Joybus.Proofs.Invariants
import Joybus.Proofs.Histories
import Joybus.Proofs.Sessions
import Joybus.Proofs.Driving
import Joybus.Proofs.BusTurn
import Joybus.Proofs.Phases
import Joybus.Proofs.Exclusion
import Joybus.Proofs.Endings
import Joybus.Proofs.Readiness
import Joybus.Proofs.Answers
import Joybus.Proofs.Engines
import Joybus.Proofs.Responsive
import Joybus.Proofs.Sending
import Joybus.Proofs.Receiving
import Joybus.Proofs.Refusals
import Joybus.Proofs.Recovery
import Joybus.Proofs.Unpacking
import Joybus.Proofs.Line
import Joybus.Proofs.RoundTrip
import Joybus.Proofs.Unwinding
import Joybus.Proofs.FailedSends
import Joybus.Proofs.FailedReceives
import Joybus.Proofs.Bookkeeping
import Joybus.Proofs.Failures
import Joybus.Proofs.Cancellation
import Joybus.Proofs.CutExchange
import Joybus.Proofs.Spending
import Joybus.Proofs.Deadlines
import Joybus.Proofs.Ranges
import Joybus.Proofs.Exchanges
import Joybus.Proofs.Agreement
import Joybus.Proofs.Registers
import Joybus.Proofs.Deliveries
import Joybus.Proofs.Routing
import Joybus.Proofs.Rows
import Joybus.Proofs.Numerals
import Joybus.Proofs.Loading
import Joybus.Proofs.Closings
import Joybus.Proofs.Interruptions
import Joybus.Proofs.Quiescence
import Joybus.Proofs.Handover
import Joybus.Proofs.Independence
import Joybus.Proofs.Overruns
import Joybus.Proofs.Encoding
import Joybus.Proofs.Feeding
import Joybus.Proofs.Collecting
import Joybus.Proofs.Watching
import Joybus.Proofs.Verdicts
import Joybus.Proofs.Noise
import Joybus.Proofs.Windows
import Joybus.Proofs.Layout
import Joybus.Proofs.Remarks
import Joybus.Proofs.Overrides
import Joybus.Proofs.Edits
import Joybus.Proofs.Boxes
import Joybus.Proofs.Dividers
import Joybus.Proofs.Passes
import Joybus.Proofs.Returns
