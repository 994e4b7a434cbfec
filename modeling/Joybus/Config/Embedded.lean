import Joybus.Config.Text

/-!
The configuration built into the firmware.
-/

namespace Joybus.Config

/-- The text of the built-in configuration. -/
def embedded : String := "# Joywire bus configuration
#
# Compiled into the firmware. Edit and rebuild to change.
# Anything left out keeps its built-in default.

version = 1

[transceiver]
# \"dma\" (up to 16-byte frames) or \"fifo\" (CPU-fed, up to 32 bytes)
mode = \"dma\"
# Receive word layout; the receive program pushes one byte per word
rx_packing = \"one\"
# Bound on waiting for the previous frame to drain, in microseconds
bus_turn_timeout_us = 2000
# Sleep between hardware flag polls, in microseconds
poll_interval_us = 2

[timing]
# PIO clock; 4MHz gives 16 cycles per 4us Joybus bit
pio_clock_hz = 4000000
# Receiver is enabled this long before the transmitter at startup
rx_settle_ms = 200
tx_timeout_us = 1000
rx_timeout_us = 1000

[loopback]
# Self-test with GP15 wired to GP16
enabled = true
interval_ms = 5000
inter_frame_ms = 10
"

/-- The configuration the firmware starts with: that of the text, or the initial one if the text
cannot be read. -/
def load (text : List Char) : BusConfig :=
  match parse text with
  | .ok c => c
  | .error _ => .initial

end Joybus.Config
