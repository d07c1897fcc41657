import PinBench.Telemetry.Channel

/-! Where telemetry goes.  An endpoint is told the channel tables once, is asked for input levels
now and then, and is given every change of an output. -/

namespace PinBench.Telemetry

class Endpoint (E : Type) where
  /-- The channel tables are known. -/
  register : E → List InputChannel → List OutputChannel → E
  /-- The input levels that arrived last since the poll before, if any did. -/
  poll : E → E × Option (List Bool)
  push : E → Change → E
  close : E → E

/-- An endpoint that records what it is told. -/
structure Recording where
  registered : Array (List InputChannel × List OutputChannel)
  /-- The input levels that the next poll gives, once. -/
  queued : Option (List Bool)
  pushed : Array Change
  polls : Nat
  closes : Nat
  deriving DecidableEq, Repr

namespace Recording

def empty : Recording :=
  { registered := #[], queued := none, pushed := #[], polls := 0, closes := 0 }

instance : Endpoint Recording where
  register e inputs outputs := { e with registered := e.registered.push (inputs, outputs) }
  poll e := ({ e with queued := none, polls := e.polls + 1 }, e.queued)
  push e change := { e with pushed := e.pushed.push change }
  close e := { e with closes := e.closes + 1 }

end Recording

end PinBench.Telemetry
