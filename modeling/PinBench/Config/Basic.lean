import PinBench.Serial.Frame

/-! The configuration of a bench, part by part, with the values that hold unless something else is
said. -/

namespace PinBench

namespace Config

/-- The port of the debug server unless another one is configured. -/
def defaultJtagPort : UInt16 := 5555

/-- The port of the telemetry server unless another one is configured. -/
def defaultTelemetryPort : UInt16 := 8081

/-- The depth limit of a recording unless another one is configured. -/
def defaultTraceDepth : UInt32 := 99

/-- The file of a recording unless another one is configured. -/
def defaultTraceFile : String := "trace.vcd"

structure Clock where
  /-- Half a clock period: the time that passes in each iteration. -/
  timeStep : UInt64
  startsHigh : Bool
  deriving DecidableEq, Repr

structure Reset where
  releaseTime : UInt64
  activeHigh : Bool
  deriving DecidableEq, Repr

namespace Reset

/-- The level of the reset line while reset is in force. -/
def assertedLevel (r : Reset) : Bool := r.activeHigh

/-- The level of the reset line from the release time on. -/
def releasedLevel (r : Reset) : Bool := !r.activeHigh

end Reset

structure Uart where
  baudRate : UInt32
  /-- The bytes to send to the model. -/
  script : List UInt8
  deriving DecidableEq, Repr

structure Jtag where
  enabled : Bool
  port : UInt16
  /-- Iterations for each phase of the test clock. -/
  divisor : UInt64
  loopbackOnly : Bool
  deriving DecidableEq, Repr

structure Telemetry where
  enabled : Bool
  port : UInt16
  pollInterval : UInt64
  deriving DecidableEq, Repr

structure Trace where
  enabled : Bool
  path : String
  depth : UInt32
  deriving DecidableEq, Repr

/-- The counter on the GPIO inputs. -/
structure Stimulus where
  enabled : Bool
  interval : UInt64
  deriving DecidableEq, Repr

end Config

structure Config where
  clock : Config.Clock
  reset : Config.Reset
  uart : Config.Uart
  jtag : Config.Jtag
  telemetry : Config.Telemetry
  trace : Config.Trace
  stimulus : Config.Stimulus
  /-- The time limit.  Zero is no limit. -/
  timeout : UInt64
  verbose : Bool
  deriving DecidableEq, Repr

namespace Config

/-- The configuration that holds unless something else is said. -/
def standard : Config where
  clock := ⟨10, true⟩
  reset := ⟨100, true⟩
  uart := ⟨Serial.defaultBaudRate, []⟩
  jtag := ⟨false, defaultJtagPort, 1, true⟩
  telemetry := ⟨false, defaultTelemetryPort, 10000⟩
  trace := ⟨false, defaultTraceFile, defaultTraceDepth⟩
  stimulus := ⟨true, 10000000⟩
  timeout := 0
  verbose := false

/-- The time that passes in each iteration.  A step of zero counts as one. -/
def timeStep (c : Config) : Nat := max c.clock.timeStep.toNat 1

end Config

end PinBench
