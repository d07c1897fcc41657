import PinBench.Time
import PinBench.Pins.Fixture
import PinBench.Gpio.Allocation

/-! The counter that stimulates the GPIO inputs.  It counts up once in every interval and shows its
value in its own bits of the input word.  The deadlines follow each other by exactly one interval,
and each tick counts at most once. -/

namespace PinBench.Gpio

structure Counter where
  range : InputRange
  /-- The time between counts.  Zero stops the counter. -/
  interval : Time
  /-- When the counter counts next. -/
  nextAt : Time
  value : Word
  deriving DecidableEq, Repr

namespace Counter

/-- A counter at zero, which first counts after one interval. -/
def start (range : InputRange) (interval : Time) : Counter :=
  { range, interval, nextAt := interval, value := 0 }

def due (c : Counter) (now : Time) : Bool := c.interval != 0 && decide (c.nextAt ≤ now)

/-- The counter with the next value, cut to the width of its range. -/
def count (c : Counter) : Counter :=
  { c with
    nextAt := c.nextAt.after c.interval
    value := (c.value + 1) &&& Word.lowMask c.range.width }

variable {M : Type} [HardwareModel M]

/-- One tick at time `now`: the new value goes onto the inputs if the counter counts. -/
def tick (c : Counter) (now : Time) (f : Fixture M) : Counter × Fixture M :=
  if c.due now then
    let c := c.count
    (c, f.writeField .gpioIn c.range.lsb c.range.width c.value)
  else (c, f)

end Counter

end PinBench.Gpio
