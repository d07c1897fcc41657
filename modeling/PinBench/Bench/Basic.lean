import PinBench.Config.Basic
import PinBench.Gpio.Counter
import PinBench.Gpio.Monitor
import PinBench.Jtag.Probe
import PinBench.Serial.Link
import PinBench.Telemetry.Relay
import PinBench.Telemetry.Server
import PinBench.Wave.Recorder

/-! The bench around a model: what it is made of, how it starts and how it shuts down.  Starting
checks that the roles which the configuration needs are served, opens the servers and the recording,
and drives the first levels.  The first thing that fails decides the error. -/

namespace PinBench

inductive Transport where
  | jtag
  | telemetry
  deriving DecidableEq, Repr

def Transport.label : Transport → String
  | .jtag => "jtag"
  | .telemetry => "telemetry"

/-- What a bench finds around it. -/
structure Surroundings where
  /-- Whether a port of the machine can be listened on. -/
  portFree : Transport → UInt16 → Bool
  /-- Whether the file of the recording can be created. -/
  traceWritable : Bool
  /-- Whether clients can reach the servers. -/
  reachable : Bool

inductive StartError where
  | pin (e : PinError)
  | listen (transport : Transport)
  | trace
  deriving DecidableEq, Repr

def StartError.message : StartError → String
  | .pin e => e.message
  | .listen t => "failed to start " ++ t.label ++ " listener"
  | .trace => "failed to open waveform trace"

inductive Cause where
  | modelFinished
  | timeout
  | interrupted
  | jtagDisconnected
  | jtagProtocolError
  deriving DecidableEq, Repr

namespace Cause

def all : List Cause :=
  [.modelFinished, .timeout, .interrupted, .jtagDisconnected, .jtagProtocolError]

def label : Cause → String
  | .modelFinished => "model finished"
  | .timeout => "timeout"
  | .interrupted => "interrupted"
  | .jtagDisconnected => "JTAG client disconnected"
  | .jtagProtocolError => "JTAG protocol error"

/-- The cause that a step of the debug server gives. -/
def ofStatus? : Jtag.Status → Option Cause
  | .success => none
  | .clientDisconnected => some .jtagDisconnected
  | .protocolError => some .jtagProtocolError

end Cause

structure Bench (M : Type) where
  config : Config
  fixture : Fixture M
  time : Timebase
  serial : Option Serial.Link
  probe : Option Jtag.Probe
  relay : Option (Telemetry.Relay Telemetry.Server)
  recorder : Option Wave.Recorder
  counter : Option Gpio.Counter
  monitor : Gpio.Monitor
  /-- Reset has been released. -/
  released : Bool
  /-- The servers and the recording have been shut down. -/
  down : Bool
  /-- What clients could not do, in order. -/
  refused : List Net.ClientError

namespace Bench

variable {M : Type} [HardwareModel M]

/-- All the roles have to be served. -/
def requireAll (f : Fixture M) (roles : List Role) : Except StartError Unit :=
  roles.forM fun role => (f.require role).mapError .pin

/-- The serial link, if both its lines are served.  A script needs them. -/
def startSerial (config : Config) (f : Fixture M) : Except StartError (Option Serial.Link) := do
  unless config.uart.script.isEmpty do requireAll f [.uartRx, .uartTx]
  return if f.bound .uartRx && f.bound .uartTx then
    some (.start config.uart.baudRate config.uart.script)
  else none

def startProbe (around : Surroundings) (config : Config) (f : Fixture M) :
    Except StartError (Option Jtag.Probe) := do
  if config.jtag.enabled then
    requireAll f [.jtagTck, .jtagTms, .jtagTdi, .jtagTdo]
    unless around.portFree .jtag config.jtag.port do throw (.listen .jtag)
    return some
      { server := .listen (if config.jtag.loopbackOnly then .loopback else .any) around.reachable
        gate := .every config.jtag.divisor.toNat config.clock.timeStep.toNat }
  else return none

/-- Whether the telemetry server can listen: its port is free, and the debug server has not just
taken it.  Port zero stands for any free port. -/
def telemetryPortFree (around : Surroundings) (config : Config) : Bool :=
  around.portFree .telemetry config.telemetry.port &&
    !(config.jtag.enabled && config.telemetry.port != 0 &&
      config.jtag.port == config.telemetry.port)

def startRelay (around : Surroundings) (config : Config) (allocation : Gpio.Allocation)
    (f : Fixture M) : Except StartError (Option (Telemetry.Relay Telemetry.Server)) := do
  if config.telemetry.enabled then
    requireAll f [.gpioIn, .gpioOut]
    unless telemetryPortFree around config do throw (.listen .telemetry)
    let range := (allocation.range? .telemetry).getD ⟨.telemetry, 0, 0⟩
    return some (.start (.listen around.reachable) range config.telemetry.pollInterval.toNat)
  else return none

/-- The counter, if it is enabled, has bits of its own and can show them. -/
def startCounter (config : Config) (allocation : Gpio.Allocation) (f : Fixture M) :
    Option Gpio.Counter :=
  if config.stimulus.enabled && f.bound .gpioIn then
    (allocation.range? .stimulus).map fun range => .start range config.stimulus.interval.toNat
  else none

def startRecorder (around : Surroundings) (config : Config) (f : Fixture M) :
    Except StartError (Option Wave.Recorder) := do
  if config.trace.enabled then
    unless around.traceWritable do throw .trace
    return some (.start none config.trace.depth.toNat (HardwareModel.signals f.model))
  else return none

/-- The first levels: the clock and reset lines, the test reset and the inputs, then the lines of
the serial link and of the probe. -/
def driveFirst (config : Config) (serial probe : Bool) (f : Fixture M) : Fixture M :=
  let f := f.drive .clock config.clock.startsHigh
  let f := f.drive .reset config.reset.assertedLevel
  let f := f.drive .jtagTrst false
  let f := f.write .gpioIn 0
  let f := if serial then Serial.Link.attach f else f
  if probe then Jtag.Probe.attach f else f

def start (around : Surroundings) (config : Config) (allocation : Gpio.Allocation)
    (f : Fixture M) : Except StartError (Bench M) := do
  requireAll f [.clock, .reset]
  let serial ← startSerial config f
  let probe ← startProbe around config f
  let relay ← startRelay around config allocation f
  let recorder ← startRecorder around config f
  return { config, serial, probe, relay, recorder
           fixture := driveFirst config serial.isSome probe.isSome f
           time := .start config.clock.startsHigh
           counter := startCounter config allocation f
           monitor := .start, released := false, down := false, refused := [] }

/-- The servers let go of their clients and the recording ends.  This happens once. -/
def shutdown (b : Bench M) : Bench M :=
  if b.down then b
  else
    { b with
      down := true
      probe := b.probe.map Jtag.Probe.shutdown
      relay := b.relay.map Telemetry.Relay.shutdown
      recorder := b.recorder.map Wave.Recorder.close }

def recording (b : Bench M) : Bool := b.recorder.any (·.isOpen)

def received (b : Bench M) : Array UInt8 := (b.serial.map (·.received)).getD #[]

end Bench

end PinBench
