import PinBench.Time
import PinBench.Serial.Frame

/-! The sending side of a serial line.  A transmitter holds the bytes that wait and the frame that
is under way, and gives the level of its line at each tick.  Deadlines follow each other by exactly
one bit, whatever the times of the ticks.  The first frame starts no earlier than one bit after the
first tick, so that a receiver sees the line idle first; later frames may start on the tick that
ends the one before. -/

namespace PinBench.Serial

structure Transmitter where
  bitPeriod : Nat
  phase : Phase
  deadline : Time
  /-- The data bits of the frame that have not been driven yet, the next one lowest. -/
  shift : UInt8
  /-- The byte of the frame under way, or of the last one. -/
  current : UInt8
  level : Bool
  /-- When the next frame may start, once that is known. -/
  readyAt : Option Time
  pending : List UInt8
  deriving DecidableEq, Repr

namespace Transmitter

def idle (baudRate : UInt32) : Transmitter :=
  { bitPeriod := Serial.bitPeriod baudRate, phase := .idle, deadline := 0, shift := 0,
    current := 0, level := true, readyAt := none, pending := [] }

/-- More bytes to send, after those that wait. -/
def enqueue (t : Transmitter) (bytes : List UInt8) : Transmitter :=
  { t with pending := t.pending ++ bytes }

/-- Whether nothing waits and no frame is under way. -/
def isIdle (t : Transmitter) : Bool := t.phase == .idle && t.pending.isEmpty

/-- The next bit of the frame goes onto the line, one bit long. -/
def driveBit (t : Transmitter) (phase : Phase) (level : Bool) : Transmitter :=
  { t with phase, level, deadline := t.deadline + t.bitPeriod }

/-- The next data bit goes onto the line, out of the shift register. -/
def driveData (t : Transmitter) (i : Fin 8) : Transmitter :=
  { t.driveBit (.data i) (t.shift &&& 1 != 0) with shift := t.shift >>> 1 }

/-- The phase that is over at time `now` gives way to the next one.  A frame that ends yields its
byte. -/
def follow (t : Transmitter) (now : Time) : Transmitter × Option UInt8 :=
  if t.phase = .idle ∨ now < t.deadline then (t, none)
  else
    match t.phase with
    | .idle => (t, none)
    | .start => (t.driveData firstBit, none)
    | .data i =>
      match nextBit? i with
      | some next => (t.driveData next, none)
      | none => (t.driveBit .stop true, none)
    | .stop => ({ t with phase := .idle, readyAt := some now }, some t.current)

/-- The next frame starts at time `now`, if there is one and it may. -/
def begin (t : Transmitter) (now : Time) : Transmitter :=
  let readyAt := t.readyAt.getD (now + t.bitPeriod)
  let t := { t with readyAt := some readyAt }
  match t.pending with
  | byte :: rest =>
    if readyAt ≤ now then
      { t with phase := .start, level := false, shift := byte, current := byte, pending := rest,
               deadline := now + t.bitPeriod }
    else t
  | [] => t

/-- The transmitter at time `now`, and the byte whose frame ended with this tick. -/
def tick (t : Transmitter) (now : Time) : Transmitter × Option UInt8 :=
  let (t, sent) := t.follow now
  (if t.phase = .idle then t.begin now else t, sent)

end Transmitter

end PinBench.Serial
