import PinBench.Config.Basic
import PinBench.Json.Fields
import PinBench.Json.Printer
import PinBench.Json.Reader

/-! The configuration as JSON.  Each part is a record; a field that is absent has its standard
value, and so has every field of a part that is absent. -/

namespace PinBench.Config

open Json

namespace Clock

def toJson (c : Clock) : Json :=
  .record [("time_step", .nat c.timeStep.toNat), ("starts_high", .bool c.startsHigh)]

def ofJson? (j : Json) : Option Clock :=
  match j.fields? ["time_step", "starts_high"] with
  | some [timeStep, startsHigh] => do
    return { timeStep := ← fieldOr standard.clock.timeStep toUInt64? timeStep
             startsHigh := ← fieldOr standard.clock.startsHigh toBool? startsHigh }
  | _ => none

end Clock

namespace Reset

def toJson (r : Reset) : Json :=
  .record [("release_time", .nat r.releaseTime.toNat), ("active_high", .bool r.activeHigh)]

def ofJson? (j : Json) : Option Reset :=
  match j.fields? ["release_time", "active_high"] with
  | some [releaseTime, activeHigh] => do
    return { releaseTime := ← fieldOr standard.reset.releaseTime toUInt64? releaseTime
             activeHigh := ← fieldOr standard.reset.activeHigh toBool? activeHigh }
  | _ => none

end Reset

namespace Uart

def toJson (u : Uart) : Json :=
  .record [("baud_rate", .nat u.baudRate.toNat),
    ("tx_script", .array (u.script.map fun b => .nat b.toNat))]

def ofJson? (j : Json) : Option Uart :=
  match j.fields? ["baud_rate", "tx_script"] with
  | some [baudRate, script] => do
    return { baudRate := ← fieldOr standard.uart.baudRate toUInt32? baudRate
             script := ← fieldOr standard.uart.script (toList? toUInt8?) script }
  | _ => none

end Uart

namespace Jtag

def toJson (c : Jtag) : Json :=
  .record [("enabled", .bool c.enabled), ("port", .nat c.port.toNat),
    ("divisor", .nat c.divisor.toNat), ("loopback_only", .bool c.loopbackOnly)]

def ofJson? (j : Json) : Option Jtag :=
  match j.fields? ["enabled", "port", "divisor", "loopback_only"] with
  | some [enabled, port, divisor, loopbackOnly] => do
    return { enabled := ← fieldOr standard.jtag.enabled toBool? enabled
             port := ← fieldOr standard.jtag.port toUInt16? port
             divisor := ← fieldOr standard.jtag.divisor toUInt64? divisor
             loopbackOnly := ← fieldOr standard.jtag.loopbackOnly toBool? loopbackOnly }
  | _ => none

end Jtag

namespace Telemetry

def toJson (c : Telemetry) : Json :=
  .record [("enabled", .bool c.enabled), ("port", .nat c.port.toNat),
    ("poll_interval", .nat c.pollInterval.toNat)]

def ofJson? (j : Json) : Option Telemetry :=
  match j.fields? ["enabled", "port", "poll_interval"] with
  | some [enabled, port, pollInterval] => do
    return { enabled := ← fieldOr standard.telemetry.enabled toBool? enabled
             port := ← fieldOr standard.telemetry.port toUInt16? port
             pollInterval := ← fieldOr standard.telemetry.pollInterval toUInt64? pollInterval }
  | _ => none

end Telemetry

namespace Trace

def toJson (c : Trace) : Json :=
  .record [("enabled", .bool c.enabled), ("path", .text c.path), ("depth", .nat c.depth.toNat)]

def ofJson? (j : Json) : Option Trace :=
  match j.fields? ["enabled", "path", "depth"] with
  | some [enabled, path, depth] => do
    return { enabled := ← fieldOr standard.trace.enabled toBool? enabled
             path := ← fieldOr standard.trace.path toText? path
             depth := ← fieldOr standard.trace.depth toUInt32? depth }
  | _ => none

end Trace

namespace Stimulus

def toJson (c : Stimulus) : Json :=
  .record [("enabled", .bool c.enabled), ("interval", .nat c.interval.toNat)]

def ofJson? (j : Json) : Option Stimulus :=
  match j.fields? ["enabled", "interval"] with
  | some [enabled, interval] => do
    return { enabled := ← fieldOr standard.stimulus.enabled toBool? enabled
             interval := ← fieldOr standard.stimulus.interval toUInt64? interval }
  | _ => none

end Stimulus

def toJson (c : Config) : Json :=
  .record [("clock", c.clock.toJson), ("reset", c.reset.toJson), ("uart", c.uart.toJson),
    ("jtag", c.jtag.toJson), ("telemetry", c.telemetry.toJson), ("trace", c.trace.toJson),
    ("stimulus", c.stimulus.toJson), ("timeout", .nat c.timeout.toNat),
    ("verbose", .bool c.verbose)]

def ofJson? (j : Json) : Option Config :=
  match j.fields? ["clock", "reset", "uart", "jtag", "telemetry", "trace", "stimulus", "timeout",
      "verbose"] with
  | some [clock, reset, uart, jtag, telemetry, trace, stimulus, timeout, verbose] => do
    return { clock := ← fieldOr standard.clock Clock.ofJson? clock
             reset := ← fieldOr standard.reset Reset.ofJson? reset
             uart := ← fieldOr standard.uart Uart.ofJson? uart
             jtag := ← fieldOr standard.jtag Jtag.ofJson? jtag
             telemetry := ← fieldOr standard.telemetry Telemetry.ofJson? telemetry
             trace := ← fieldOr standard.trace Trace.ofJson? trace
             stimulus := ← fieldOr standard.stimulus Stimulus.ofJson? stimulus
             timeout := ← fieldOr standard.timeout toUInt64? timeout
             verbose := ← fieldOr standard.verbose toBool? verbose }
  | _ => none

def print (c : Config) : List Char := c.toJson.print

def read? (text : List Char) : Option Config := (Json.read? text).bind ofJson?

end PinBench.Config
