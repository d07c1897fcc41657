import PinBench.Time
import PinBench.Pins.Fixture
import PinBench.Telemetry.Endpoint

/-! The relay between a model and a telemetry endpoint.  It publishes each bit of the GPIO output
word when it changes, passes on the bytes of the serial link, and puts the levels that the endpoint
gives into the observer's bits of the GPIO input word.  The endpoint is asked at most once in every
interval. -/

namespace PinBench.Telemetry

structure Relay (E : Type) where
  endpoint : E
  /-- The observer's bits of the input word. -/
  range : Gpio.InputRange
  pollInterval : Time
  nextPoll : Time
  /-- The level that each bit of the output word was last published with. -/
  shown : Vector (Option Bool) ledCount

namespace Relay

variable {E : Type} [Endpoint E]

/-- A relay that has published nothing but its channel tables.  An interval of zero counts as
one. -/
def start (endpoint : E) (range : Gpio.InputRange) (pollInterval : Time) : Relay E :=
  { endpoint := Endpoint.register endpoint (inputChannels range) outputChannels
    range, pollInterval := max pollInterval 1, nextPoll := 0
    shown := Vector.replicate ledCount none }

/-- One byte of the serial link is published. -/
def pushByte (m : Relay E) (now : Time) (byte : UInt8) : Relay E :=
  { m with endpoint := Endpoint.push m.endpoint ⟨streamName, byte.toUInt64, UInt64.ofNat now⟩ }

/-- Bit `i` of the output word is published if its level is new. -/
def publishBit (now : Time) (leds : Word) (m : Relay E) (i : Fin ledCount) : Relay E :=
  let level := leds.getLsbD i.val
  if m.shown[i] = some level then m
  else
    { m with
      shown := m.shown.set i.val (some level)
      endpoint := Endpoint.push m.endpoint
        ⟨ledName i.val, if level then 1 else 0, UInt64.ofNat now⟩ }

/-- Every bit of the output word whose level is new is published. -/
def publish (m : Relay E) (now : Time) (leds : Word) : Relay E :=
  (List.finRange ledCount).foldl (publishBit now leds) m

variable {M : Type} [HardwareModel M]

/-- The observer's levels go into its bits of the input word.  Bits without a level are low. -/
def applyInputs (m : Relay E) (levels : List Bool) (f : Fixture M) : Fixture M :=
  f.writeField .gpioIn m.range.lsb m.range.width (Word.ofLevels (levels.take m.range.width))

/-- The endpoint is asked for levels if it is time. -/
def pollInputs (m : Relay E) (now : Time) (f : Fixture M) : Relay E × Fixture M :=
  if now < m.nextPoll then (m, f)
  else
    let (endpoint, levels) := Endpoint.poll m.endpoint
    let m := { m with endpoint, nextPoll := now.after m.pollInterval }
    match levels with
    | some levels => (m, m.applyInputs levels f)
    | none => (m, f)

/-- One tick: inputs first, then outputs. -/
def tick (m : Relay E) (now : Time) (f : Fixture M) : Relay E × Fixture M :=
  let (m, f) := m.pollInputs now f
  (m.publish now (f.read .gpioOut), f)

def shutdown (m : Relay E) : Relay E := { m with endpoint := Endpoint.close m.endpoint }

end Relay

end PinBench.Telemetry
