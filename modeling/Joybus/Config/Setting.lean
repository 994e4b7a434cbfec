import Joybus.Config.Basic

/-!
The settings a configuration has: their sections and keys.
-/

namespace Joybus.Config

/-- Where in a configuration a key stands: before all headers, or under one. -/
inductive Section where
  | root
  | transceiver
  | timing
  | loopback
deriving DecidableEq, Repr

namespace Section

/-- The name in a section's header. -/
def name : Section → String
  | root => ""
  | transceiver => "transceiver"
  | timing => "timing"
  | loopback => "loopback"

/-- The sections that have a header. -/
def headed : List Section := [transceiver, timing, loopback]

def ofName? (name : List Char) : Option Section :=
  headed.find? fun s => s.name.toList = name

end Section

inductive Setting where
  | version
  | mode
  | packing
  | busTurnTimeout
  | pollInterval
  | pioClock
  | rxSettle
  | txTimeout
  | rxTimeout
  | enabled
  | interval
  | interFrame
deriving DecidableEq, Repr

namespace Setting

def all : List Setting :=
  [version, mode, packing, busTurnTimeout, pollInterval, pioClock, rxSettle, txTimeout, rxTimeout,
    enabled, interval, interFrame]

def home : Setting → Section
  | version => .root
  | mode | packing | busTurnTimeout | pollInterval => .transceiver
  | pioClock | rxSettle | txTimeout | rxTimeout => .timing
  | enabled | interval | interFrame => .loopback

def key : Setting → String
  | version => "version"
  | mode => "mode"
  | packing => "rx_packing"
  | busTurnTimeout => "bus_turn_timeout_us"
  | pollInterval => "poll_interval_us"
  | pioClock => "pio_clock_hz"
  | rxSettle => "rx_settle_ms"
  | txTimeout => "tx_timeout_us"
  | rxTimeout => "rx_timeout_us"
  | enabled => "enabled"
  | interval => "interval_ms"
  | interFrame => "inter_frame_ms"

/-- The setting with the given key in a section. -/
def find? (s : Section) (key : List Char) : Option Setting :=
  all.find? fun t => t.home = s && t.key.toList = key

end Setting

end Joybus.Config
