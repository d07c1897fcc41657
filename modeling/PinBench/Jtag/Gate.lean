import PinBench.Time

/-! Which instants belong to the test clock: those that are a multiple of the gate's period. -/

namespace PinBench.Jtag

/-- A gate that opens once in every period. -/
structure Gate where
  period : Nat
  deriving DecidableEq, Repr

namespace Gate

/-- One phase of the test clock in every `divisor` time steps.  A product of zero counts as one. -/
def every (divisor timeStep : Nat) : Gate := ⟨max (min (divisor * timeStep) Time.latest) 1⟩

/-- The number of the phase at an instant, if one falls on it. -/
def cycle? (g : Gate) (now : Time) : Option Nat :=
  if now % g.period = 0 then some (now / g.period) else none

end Gate

end PinBench.Jtag
