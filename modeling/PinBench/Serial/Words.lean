import PinBench.Serial.Link

/-! A serial link on a machine with words.  A tick is the exact one, with each sum of times that it
takes brought into a word.  Where the sums fit, the two are the same. -/

namespace PinBench.Serial

/-- `begin`, with sums in words.  The first of them is taken even when it is known already from when
on the next frame may start. -/
def Transmitter.beginIn (o : Overflow) (t : Transmitter) (now : Time) : Option Transmitter := do
  let due ← o.word? (now + t.bitPeriod)
  let t := { t with readyAt := some (t.readyAt.getD due) }.begin now
  return { t with deadline := ← o.word? t.deadline }

/-- `tick`, with sums in words. -/
def Transmitter.tickIn (o : Overflow) (t : Transmitter) (now : Time) :
    Option (Transmitter × Option UInt8) := do
  let (t, sent) := t.follow now
  let t := { t with deadline := ← o.word? t.deadline }
  if t.phase = .idle then return (← t.beginIn o now, sent) else return (t, sent)

/-- `tick`, with sums in words. -/
def Receiver.tickIn (o : Overflow) (r : Receiver) (now : Time) (line : Bool) :
    Option (Receiver × Option UInt8) := do
  let (r, received) := r.tick now line
  return ({ r with deadline := ← o.word? r.deadline }, received)

variable {M : Type} [HardwareModel M]

/-- `tick`, with sums in words. -/
def Link.tickIn (o : Overflow) (p : Link) (now : Time) (f : Fixture M) :
    Option (Link × Fixture M) := do
  let transmitter ← p.transmitter.tickIn o now
  let f := f.drive .uartRx transmitter.1.level
  let receiver ← p.receiver.tickIn o now (f.read .uartTx).isHigh
  return (p.ticked transmitter receiver, f)

end PinBench.Serial
