import PinBench.Bench.Basic

/-! Running a bench.  An iteration releases reset when it is time, evaluates the model and records
it, lets the serial link, the probe and the relay exchange levels with it, and looks for a cause to
end.  If there is none, the clock changes its level, time moves on and the counter may count.

What happens outside the bench is given as a schedule: for each iteration, what clients do right
before it and whether the stop flag is up when the bench looks for a cause. -/

namespace PinBench

/-- What happens outside the bench around one iteration. -/
structure Arrivals where
  /-- What clients of the servers do right before the iteration, in order. -/
  actions : List (Transport × Net.ClientAction)
  stop : Bool
  deriving DecidableEq, Repr

/-- What happens outside the bench around each iteration. -/
abbrev Schedule := Nat → Arrivals

/-- What a run came to. -/
structure Report where
  cause : Cause
  finalTime : Time
  received : Array UInt8
  deriving DecidableEq, Repr

namespace Bench

variable {M : Type} [HardwareModel M]

/-- The listener of one of the servers, if the server is there. -/
def listener? (b : Bench M) : Transport → Option Net.Listener
  | .jtag => b.probe.map (·.server.listener)
  | .telemetry => b.relay.map (·.endpoint.listener)

/-- The bench with another listener in one of its servers. -/
def setListener (b : Bench M) (transport : Transport) (listener : Net.Listener) : Bench M :=
  match transport with
  | .jtag =>
    { b with probe := b.probe.map fun p => { p with server := { p.server with listener } } }
  | .telemetry =>
    { b with relay := b.relay.map fun r => { r with endpoint := { r.endpoint with listener } } }

/-- A client of one of the servers acts.  A server that is not there cannot be reached. -/
def act (b : Bench M) (transport : Transport) (action : Net.ClientAction) :
    Except Net.ClientError (Bench M) :=
  match b.listener? transport with
  | some listener => (listener.act action).map (b.setListener transport)
  | none => .error .unreachable

/-- Clients act in turn.  What they cannot do is noted. -/
def actAll (b : Bench M) (actions : List (Transport × Net.ClientAction)) : Bench M :=
  actions.foldl (fun b a =>
    match b.act a.1 a.2 with
    | .ok b => b
    | .error e => { b with refused := b.refused ++ [e] }) b

/-- Reset is released once its time has come: the reset line and the test reset change. -/
def releaseReset (b : Bench M) : Bench M :=
  if b.released = false ∧ b.config.reset.releaseTime.toNat ≤ b.time.now then
    { b with
      released := true
      fixture :=
        (b.fixture.drive .reset b.config.reset.releasedLevel).drive .jtagTrst true }
  else b

def settle (b : Bench M) : Bench M :=
  let fixture := b.fixture.eval
  { b with
    fixture
    recorder := b.recorder.map fun r => r.sample b.time.now (HardwareModel.read fixture.model) }

def tickSerial (b : Bench M) : Bench M :=
  match b.serial with
  | some p =>
    let (p, fixture) := p.tick b.time.now b.fixture
    { b with serial := some p, fixture }
  | none => b

/-- The probe ticks, unless the model is in reset. -/
def tickProbe (b : Bench M) : Bench M × Option Cause :=
  match b.probe with
  | some p =>
    if b.released then
      let (p, fixture, status) := p.tick b.time.now b.fixture
      ({ b with probe := some p, fixture }, Cause.ofStatus? status)
    else (b, none)
  | none => (b, none)

/-- The relay publishes the byte that the serial link has just received, then ticks. -/
def tickRelay (b : Bench M) : Bench M :=
  match b.relay with
  | some m =>
    let m := match b.serial.bind (·.lastReceived) with
      | some byte => m.pushByte b.time.now byte
      | none => m
    let (m, fixture) := m.tick b.time.now b.fixture
    { b with relay := some m, fixture }
  | none => b

/-- What exchanges levels with the model after the serial link ticks: the probe, which may ask for
the end, and the relay.  Then the outputs are looked at. -/
def tickOthers (b : Bench M) : Bench M × Option Cause :=
  let (b, request) := b.tickProbe
  let b := b.tickRelay
  ({ b with monitor := (b.monitor.sample b.fixture).1 }, request)

/-- Everything that exchanges levels with the model ticks. -/
def exchange (b : Bench M) : Bench M × Option Cause := b.tickSerial.tickOthers

/-- The cause to end now, if there is one: the first of those that hold. -/
def cause? (b : Bench M) (stop : Bool) (request : Option Cause) : Option Cause :=
  if b.fixture.finished then some .modelFinished
  else if b.time.timedOut b.config.timeout.toNat then some .timeout
  else if stop then some .interrupted
  else request

/-- On to the next iteration: the clock changes its level, time moves on, and the counter may
count. -/
def advance (b : Bench M) : Bench M :=
  let time := b.time.toggle
  let fixture := b.fixture.drive .clock time.clock
  let time := time.advance b.config.timeStep
  match b.counter with
  | some c =>
    let (c, fixture) := c.tick time.now fixture
    { b with time, fixture, counter := some c }
  | none => { b with time, fixture }

/-- The end of an iteration: the bench ends if there is a cause, or goes on. -/
def proceed (b : Bench M) (stop : Bool) (request : Option Cause) : Bench M × Option Cause :=
  match b.cause? stop request with
  | some cause => ({ b with time := b.time.finish }, some cause)
  | none => (b.advance, none)

/-- One iteration.  It gives the cause if it is the last one. -/
def iterate (b : Bench M) (stop : Bool) : Bench M × Option Cause :=
  let (b, request) := b.releaseReset.settle.exchange
  b.proceed stop request

/-- One iteration and what happens outside the bench around it. -/
def turn (b : Bench M) (arrivals : Arrivals) : Bench M × Option Cause :=
  (b.actAll arrivals.actions).iterate arrivals.stop

/-- The report of a run that has ended, and the bench after it, shut down. -/
def conclude (b : Bench M) (cause : Cause) : Report × Bench M :=
  (⟨cause, b.time.now, b.received⟩, b.shutdown)

/-- Iterations from number `n` on until there is a cause to end, and the number of the last one.
`none` if there was no cause in `fuel` iterations. -/
def runFrom (schedule : Schedule) (n : Nat) (b : Bench M) (fuel : Nat) :
    Option (Bench M × Cause × Nat) :=
  match fuel with
  | 0 => none
  | fuel + 1 =>
    match b.turn (schedule n) with
    | (b, some cause) => some (b, cause, n)
    | (b, none) => runFrom schedule (n + 1) b fuel

/-- A run whose first iteration has number `n`: its report, the bench after it, shut down, and the
number of the iteration that comes next. -/
def run (schedule : Schedule) (n : Nat) (b : Bench M) (fuel : Nat) :
    Option (Report × Bench M × Nat) :=
  (runFrom schedule n b fuel).map fun (b, cause, last) =>
    let (report, b) := b.conclude cause
    (report, b, last + 1)

end Bench

end PinBench
