import PinBench.Pins.Fixture

/-! The monitor of the GPIO outputs: it tells when the output word has changed. -/

namespace PinBench.Gpio

/-- The output word at the last sample. -/
structure Monitor where
  last : Word
  deriving DecidableEq, Repr

namespace Monitor

/-- Before the first sample all outputs count as low. -/
def start : Monitor := ⟨0⟩

variable {M : Type} [HardwareModel M]

/-- Samples the output word, and gives it if it has changed. -/
def sample (m : Monitor) (f : Fixture M) : Monitor × Option Word :=
  let value := f.read .gpioOut
  if value = m.last then (m, none) else (⟨value⟩, some value)

end Monitor

end PinBench.Gpio
