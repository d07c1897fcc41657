import PinBench.Time
import PinBench.Serial.Frame

/-! The receiving side of a serial line.  A falling line starts a frame.  Half a bit later the start
bit is confirmed, and from there each data bit is sampled one bit after the one before.  The frame
ends ten bits after its start edge; the level of the stop bit is not looked at. -/

namespace PinBench.Serial

structure Receiver where
  bitPeriod : Nat
  phase : Phase
  /-- When the line is sampled next, or the frame ends. -/
  deadline : Time
  /-- The data bits sampled so far. -/
  shift : UInt8
  previous : Option Bool
  deriving DecidableEq, Repr

namespace Receiver

/-- A receiver that has not seen its line yet. -/
def idle (baudRate : UInt32) : Receiver :=
  { bitPeriod := Serial.bitPeriod baudRate, phase := .idle, deadline := 0, shift := 0,
    previous := none }

/-- The frame under way takes a sample of the line at time `now`, if one is due.  A frame that ends
yields its byte. -/
def follow (r : Receiver) (now : Time) (line : Bool) : Receiver × Option UInt8 :=
  if r.phase = .idle ∨ now < r.deadline then (r, none)
  else
    match r.phase with
    | .idle => (r, none)
    | .start =>
      if line then ({ r with phase := .idle }, none)
      else ({ r with phase := .data firstBit, deadline := r.deadline + r.bitPeriod }, none)
    | .data i =>
      let r := { r with shift := raiseBit r.shift i line }
      match nextBit? i with
      | some next => ({ r with phase := .data next, deadline := r.deadline + r.bitPeriod }, none)
      | none =>
        ({ r with phase := .stop,
                  deadline := r.deadline + (r.bitPeriod + (r.bitPeriod - r.bitPeriod / 2)) }, none)
    | .stop => ({ r with phase := .idle }, some r.shift)

/-- A falling line starts a frame at time `now`. -/
def begin (r : Receiver) (now : Time) (line : Bool) : Receiver :=
  if r.phase = .idle ∧ r.previous = some true ∧ line = false then
    { r with phase := .start, deadline := now + r.bitPeriod / 2, shift := 0 }
  else r

/-- The receiver after it saw the line at time `now`, and the byte whose frame ended with this
tick. -/
def tick (r : Receiver) (now : Time) (line : Bool) : Receiver × Option UInt8 :=
  let (r, received) := r.follow now line
  ({ r.begin now line with previous := some line }, received)

end Receiver

end PinBench.Serial
