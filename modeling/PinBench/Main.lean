import Std.Async.Signal
import PinBench.CommandLine
import PinBench.Net.Gateway

/-! The program: a bench around the echo model on the machine's own network and file system.  It
reads no clock; virtual time alone decides what happens, apart from what clients do and when the
user interrupts the run. -/

namespace PinBench

open Net (Gateway)

/-- The servers' sides on the network. -/
abbrev Gateways := List (Transport × Gateway)

/-- What clients have done since they were last asked. -/
def pollClients (gateways : Gateways) :
    IO (List (Transport × Net.ClientAction) × Gateways) := do
  let polled ← gateways.mapM fun (t, g) => do
    let (actions, g) ← g.poll
    return (actions.map (t, ·), t, g)
  return (polled.flatMap (·.1), polled.map (·.2))

/-- Clients are sent what the servers have written to them. -/
def deliverReplies (gateways : Gateways) (b : Bench Model.EchoSoc) :
    IO (Gateways × Bench Model.EchoSoc) := do
  let mut served : Gateways := []
  let mut b := b
  for (t, g) in gateways do
    let some listener := b.listener? t | continue
    let (listener, g) ← g.deliver listener
    served := served ++ [(t, g)]
    b := b.setListener t listener
  return (served, b)

/-- Iterations until there is a cause to end.  Sums of times wrap. -/
partial def runLive (interrupted : IO Bool) (gateways : Gateways) (b : Bench Model.EchoSoc) :
    IO (Gateways × Bench Model.EchoSoc × Cause) := do
  let (actions, gateways) ← pollClients gateways
  let some (b, cause?) := b.turnIn .wraps { actions, stop := ← interrupted }
    | throw (.userError "a sum of times does not fit into a word")
  let (gateways, b) ← deliverReplies gateways b
  match cause? with
  | some cause => return (gateways, b, cause)
  | none => runLive interrupted gateways b

/-- The gateway of a server.  `none` if its port cannot be listened on. -/
def openGateway (interface : Net.Interface) (port : UInt16) : IO (Option Gateway) :=
  try return some (← Gateway.listen interface port) catch _ => return none

/-- The gateways of the servers that are enabled, up to the first one that cannot listen. -/
def openGateways (config : Config) : IO Gateways := do
  let mut gateways : Gateways := []
  if config.jtag.enabled then
    let interface := if config.jtag.loopbackOnly then .loopback else .any
    let some g ← openGateway interface config.jtag.port | return gateways
    gateways := gateways ++ [(.jtag, g)]
  if config.telemetry.enabled then
    let some g ← openGateway .loopback config.telemetry.port | return gateways
    gateways := gateways ++ [(.telemetry, g)]
  return gateways

/-- Whether every server that is enabled has its gateway. -/
def allListening (config : Config) (gateways : Gateways) : Bool :=
  (!config.jtag.enabled || gateways.any (·.1 == .jtag)) &&
    (!config.telemetry.enabled || gateways.any (·.1 == .telemetry))

/-- The file of the recording, if one is wanted and can be created. -/
def openTrace (config : Config) : IO (Option IO.FS.Handle) := do
  unless config.trace.enabled do return none
  try return some (← IO.FS.Handle.mk config.trace.path .write) catch _ => return none

/-- Prints what is left behind, and gives the exit code. -/
def CommandLine.Outcome.print (o : CommandLine.Outcome) : IO UInt32 := do
  IO.print o.output
  for line in o.errors do IO.eprintln line
  return UInt32.ofNat o.exitCode

/-- A run on the machine's own network and file system. -/
def runOnMachine (interrupted : IO Bool) (config : Config) : IO CommandLine.Outcome := do
  let gateways ← openGateways config
  let file? ← if allListening config gateways then openTrace config else pure none
  let around : Surroundings :=
    { portFree := fun t _ => gateways.any (·.1 == t), traceWritable := file?.isSome,
      reachable := true }
  match CommandLine.startBench around config with
  | .error e => return CommandLine.errorOutcome e
  | .ok b =>
    let (gateways, b, cause) ← runLive interrupted gateways b
    let (report, b) := b.conclude cause
    let (gateways, b) ← deliverReplies gateways b
    if let (some file, some recorder) := (file?, b.recorder) then
      file.putStr recorder.text
      file.flush
    for (_, g) in gateways do g.finish 100
    return ⟨0, CommandLine.Report.line report, [], none⟩

end PinBench

open PinBench in
def main (args : List String) : IO UInt32 := do
  match CommandLine.parse args with
  | .help => CommandLine.helpOutcome.print
  | .run options =>
    for line in options.warnings do IO.eprintln line
    let interrupt ← Std.Async.Signal.Waiter.mk .sigint false
    let signal ← interrupt.wait
    let outcome ← runOnMachine (IO.hasFinished signal) (.ofPlusargs options.plusargs)
    outcome.print
