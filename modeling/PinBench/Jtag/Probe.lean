import PinBench.Pins.Fixture
import PinBench.Jtag.Gate
import PinBench.Jtag.Server

/-! The debug probe: a server that drives the model's test access port, one phase of the test clock
at each instant that the gate lets through. -/

namespace PinBench.Jtag

/-- A server and the gate in front of it. -/
structure Probe where
  server : Server
  gate : Gate
  deriving DecidableEq, Repr

namespace Probe

variable {M : Type} [HardwareModel M]

/-- The lines take their levels from before the first request. -/
def attach (f : Fixture M) : Fixture M :=
  ((f.drive .jtagTck Lines.idle.tck).drive .jtagTms Lines.idle.tms).drive .jtagTdi Lines.idle.tdi

/-- One tick: at a gated instant the server steps and its lines go onto the pins. -/
def tick (p : Probe) (now : Time) (f : Fixture M) : Probe × Fixture M × Status :=
  match p.gate.cycle? now with
  | none => (p, f, .success)
  | some cycle =>
    let server := p.server.step cycle (f.read .jtagTdo).isHigh
    let f := ((f.drive .jtagTms server.lines.tms).drive .jtagTdi server.lines.tdi).drive .jtagTck
      server.lines.tck
    ({ p with server }, f, server.lastStatus)

def shutdown (p : Probe) : Probe := { p with server := p.server.close }

end Probe

end PinBench.Jtag
