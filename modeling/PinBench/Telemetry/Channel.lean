import PinBench.Gpio.Allocation

/-! The channels of telemetry.  An input channel sets one bit of the GPIO input word.  An output
channel shows one bit of the GPIO output word, or carries the bytes of the serial link. -/

namespace PinBench.Telemetry

/-- How many bits of the output word are shown. -/
def ledCount : Nat := 16

/-- The name of the channel with the bytes of the serial link. -/
def streamName : String := "uart"

/-- A channel that the observer sets. -/
structure InputChannel where
  name : String
  bit : UInt32
  deriving DecidableEq, Repr

inductive OutputKind where
  /-- The level of one bit of the output word, whenever it changes. -/
  | level (bit : UInt32)
  | stream
  deriving DecidableEq, Repr

/-- A channel that the observer follows. -/
structure OutputChannel where
  id : UInt32
  name : String
  kind : OutputKind
  deriving DecidableEq, Repr

def OutputChannel.isLevel (c : OutputChannel) : Bool :=
  match c.kind with
  | .level _ => true
  | .stream => false

/-- A value that is published on an output channel. -/
structure Change where
  channel : String
  value : UInt64
  time : UInt64
  deriving DecidableEq, Repr

/-- The name of the channel that shows bit `i` of the output word. -/
def ledName (i : Nat) : String := "led" ++ toString i

/-- One input channel for each bit of a range. -/
def inputChannels (range : Gpio.InputRange) : List InputChannel :=
  (List.range range.width).map fun i => ⟨"sw" ++ toString i, UInt32.ofNat (range.lsb + i)⟩

/-- The channels that show the output word, and the one with the bytes of the serial link. -/
def outputChannels : List OutputChannel :=
  (List.range ledCount).map (fun i => ⟨UInt32.ofNat i, ledName i, .level (UInt32.ofNat i)⟩) ++
    [⟨UInt32.ofNat ledCount, streamName, .stream⟩]

end PinBench.Telemetry
