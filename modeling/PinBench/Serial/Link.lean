import PinBench.Pins.Fixture
import PinBench.Serial.Transmitter
import PinBench.Serial.Receiver

/-! The bench's serial link: it sends to the model on the role `uartRx` and listens to it on
`uartTx`. -/

namespace PinBench.Serial

/-- A serial link with a count of the bytes sent and a record of those received. -/
structure Link where
  transmitter : Transmitter
  receiver : Receiver
  sent : Nat
  received : Array UInt8
  lastReceived : Option UInt8
  deriving DecidableEq, Repr

namespace Link

/-- A link that is about to send `script`. -/
def start (baudRate : UInt32) (script : List UInt8) : Link :=
  { transmitter := (Transmitter.idle baudRate).enqueue script, receiver := .idle baudRate,
    sent := 0, received := #[], lastReceived := none }

def enqueue (p : Link) (bytes : List UInt8) : Link :=
  { p with transmitter := p.transmitter.enqueue bytes }

variable {M : Type} [HardwareModel M]

/-- The line into the model rests high. -/
def attach (f : Fixture M) : Fixture M := f.drive .uartRx true

/-- The link once its two ends have ticked.  With each of them comes the byte whose frame ended. -/
def ticked (p : Link) (transmitter : Transmitter × Option UInt8)
    (receiver : Receiver × Option UInt8) : Link :=
  { transmitter := transmitter.1, receiver := receiver.1, lastReceived := receiver.2,
    sent := if transmitter.2.isSome then p.sent + 1 else p.sent,
    received := match receiver.2 with
      | some byte => p.received.push byte
      | none => p.received }

/-- One tick: the model's input line takes the transmitter's level, then the receiver sees the
model's output line. -/
def tick (p : Link) (now : Time) (f : Fixture M) : Link × Fixture M :=
  let transmitter := p.transmitter.tick now
  let f := f.drive .uartRx transmitter.1.level
  let receiver := p.receiver.tick now (f.read .uartTx).isHigh
  (p.ticked transmitter receiver, f)

end Link

end PinBench.Serial
