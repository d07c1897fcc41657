import PinBench.Bench.Words
import PinBench.Config.Plusargs
import PinBench.Model.EchoSoc

/-! The command line: which arguments ask for help, which configure the bench and which are not
understood, and what the program prints for a run of the echo model. -/

namespace PinBench.CommandLine

def usage : String :=
"Usage: soc-harness [+plusargs...] [options]

Plusargs:
  +timeout=<n>          Stop at virtual time n (0 runs until another trigger)
  +vcd                  Record every signal to trace.vcd
  +trace_depth=<n>      Maximum scope depth recorded (default 99)
  +jtag_vpi_enable      Accept a jtag_vpi debug client
  +jtag_port=<port>     JTAG listener port (default 5555)
  +jtag_divisor=<n>     Harness steps per JTAG phase (default 1)
  +telemetry_enable     Accept a telemetry observer
  +telemetry_port=<port> Telemetry listener port (default 8081)
  +uart_send=<text>     Bytes to send to the model; accepts \\n \\r \\t \\\\ \\xHH
  +baud=<n>             UART baud rate (default 115200)
  +verbose              Same as --verbose

Options:
  -v, --verbose         Log at debug level (RUST_LOG overrides)
  -h, --help            Show this help message

Examples:
  soc-harness +timeout=50000000 +vcd
  soc-harness +jtag_vpi_enable +jtag_port=5555
  soc-harness +uart_send='hello\\x04'
"

/-- The arguments of a run: those that configure the bench, whether more is logged, and those that
are not understood. -/
structure Options where
  plusargs : List String
  verbose : Bool
  unknown : List String
  deriving DecidableEq, Repr

inductive Request where
  | help
  | run (options : Options)
  deriving DecidableEq, Repr

def asksHelp (arg : String) : Bool := arg == "--help" || arg == "-h"

/-- Whether an argument asks for more to be logged. -/
def asksVerbose (arg : String) : Bool := arg == "--verbose" || arg == "-v"

def startsWith (c : Char) (arg : String) : Bool := arg.toList.head? == some c

def Options.add (o : Options) (arg : String) : Options :=
  if asksVerbose arg then { o with verbose := true }
  else if startsWith '-' arg then { o with unknown := o.unknown ++ [arg] }
  else if startsWith '+' arg then
    { o with
      plusargs := o.plusargs ++ [arg]
      verbose := o.verbose || arg == "+verbose" || "+verbose=".toList.isPrefixOf arg.toList }
  else o

/-- The messages about arguments that are not understood. -/
def Options.warnings (o : Options) : List String :=
  o.unknown.map ("warning: ignoring unknown option " ++ ·)

def parse (args : List String) : Request :=
  if args.any asksHelp then .help else .run (args.foldl Options.add ⟨[], false, []⟩)

/-- What the program leaves behind. -/
structure Outcome where
  exitCode : Nat
  output : String
  /-- The messages on the error stream that tell why nothing was run. -/
  errors : List String
  /-- The bytes of the recording, if one was made. -/
  trace : Option (List UInt8)
  deriving DecidableEq, Repr

/-- The line that tells how a run ended. -/
def Report.line (r : Report) : String :=
  "Simulation ended: " ++ r.cause.label ++ " at time " ++ toString r.finalTime ++ "\n"

/-- The clock period of the model: two time steps. -/
def clockPeriod (config : Config) : Nat := max (min (2 * config.clock.timeStep.toNat) Time.latest) 1

/-- The bench that a configuration asks for, around the echo model. -/
def startBench (around : Surroundings) (config : Config) :
    Except StartError (Bench Model.EchoSoc) := do
  let model := Model.EchoSoc.powerUp config.uart.baudRate (clockPeriod config)
  let fixture ← (Fixture.bind model .standard).mapError .pin
  Bench.start around config .standard fixture

def helpOutcome : Outcome := ⟨0, usage ++ "\n", [], none⟩

/-- The outcome when the bench could not start. -/
def errorOutcome (e : StartError) : Outcome := ⟨1, "", ["error: " ++ e.message], none⟩

def runOutcome (r : Report) (b : Bench Model.EchoSoc) : Outcome :=
  ⟨0, Report.line r, [], b.recorder.map (·.bytes)⟩

/-- What the program does with some arguments, on a machine on which sums wrap.  `none` if the run
has not ended after `fuel` iterations. -/
def execute (around : Surroundings) (schedule : Schedule) (fuel : Nat) (args : List String) :
    Option Outcome :=
  match parse args with
  | .help => some helpOutcome
  | .run options =>
    match startBench around (.ofPlusargs options.plusargs) with
    | .error e => some (errorOutcome e)
    | .ok b => do
      let (report, b, _) ← (← b.runIn .wraps schedule 0 fuel).toOption
      return runOutcome report b

end PinBench.CommandLine
