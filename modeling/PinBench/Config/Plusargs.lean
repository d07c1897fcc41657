import PinBench.Config.Basic
import PinBench.Text.Decimal
import PinBench.Text.Escape

/-! Configuration by arguments of the form `+key` or `+key=value`.  An argument that is understood
is a setting, and the settings change the configuration in turn.  An argument without the plus sign,
with another key, or with a value that is no number in range where one is needed is no setting. -/

namespace PinBench.Config

/-- What an argument changes. -/
inductive Setting where
  | timeout (limit : UInt64)
  | trace
  | traceDepth (depth : UInt32)
  | jtag
  | jtagPort (port : UInt16)
  | jtagDivisor (divisor : UInt64)
  | telemetry
  | telemetryPort (port : UInt16)
  | send (bytes : List UInt8)
  | baudRate (rate : UInt32)
  | verbose
  deriving DecidableEq, Repr

/-- The key and the value of an argument.  Without an equals sign the value is empty. -/
def plusarg? (arg : List Char) : Option (List Char × List Char) :=
  match arg with
  | '+' :: text => some (text.takeWhile (· != '='), (text.dropWhile (· != '=')).drop 1)
  | _ => none

def positive? (bound : Nat) (text : List Char) : Option Nat :=
  (Decimal.read? bound text).filter (· != 0)

/-- The setting that a key and a value make. -/
def Setting.ofKey? (key value : List Char) : Option Setting :=
  match String.ofList key with
  | "timeout" => (Decimal.read? UInt64.size value).map fun n => .timeout (UInt64.ofNat n)
  | "vcd" => some .trace
  | "trace_depth" => (Decimal.read? UInt32.size value).map fun n => .traceDepth (UInt32.ofNat n)
  | "jtag_vpi_enable" => some .jtag
  | "jtag_port" => (Decimal.read? UInt16.size value).map fun n => .jtagPort (UInt16.ofNat n)
  | "jtag_divisor" => (positive? UInt64.size value).map fun n => .jtagDivisor (UInt64.ofNat n)
  | "telemetry_enable" => some .telemetry
  | "telemetry_port" =>
    (Decimal.read? UInt16.size value).map fun n => .telemetryPort (UInt16.ofNat n)
  | "uart_send" => some (.send (Escape.expand value))
  | "baud" => (positive? UInt32.size value).map fun n => .baudRate (UInt32.ofNat n)
  | "verbose" => some .verbose
  | _ => none

def Setting.ofArg? (arg : List Char) : Option Setting :=
  (plusarg? arg).bind fun (key, value) => ofKey? key value

def apply (c : Config) : Setting → Config
  | .timeout limit => { c with timeout := limit }
  | .trace => { c with trace := { c.trace with enabled := true } }
  | .traceDepth depth => { c with trace := { c.trace with depth } }
  | .jtag => { c with jtag := { c.jtag with enabled := true } }
  | .jtagPort port => { c with jtag := { c.jtag with port } }
  | .jtagDivisor divisor => { c with jtag := { c.jtag with divisor } }
  | .telemetry => { c with telemetry := { c.telemetry with enabled := true } }
  | .telemetryPort port => { c with telemetry := { c.telemetry with port } }
  | .send bytes => { c with uart := { c.uart with script := c.uart.script ++ bytes } }
  | .baudRate baudRate => { c with uart := { c.uart with baudRate } }
  | .verbose => { c with verbose := true }

/-- The configuration that some arguments make of the standard one. -/
def ofPlusargs (args : List String) : Config :=
  (args.filterMap fun arg => Setting.ofArg? arg.toList).foldl apply standard

end PinBench.Config
