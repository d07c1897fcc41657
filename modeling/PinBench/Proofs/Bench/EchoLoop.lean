import PinBench.Config.Basic
import PinBench.Proofs.Model.SerialPart
import PinBench.Proofs.Serial.Hearing
import PinBench.Serial.Link

/-! The serial loop of a bench around the echoing model, by itself: the bench's serial link, the
serial part of the model, and nothing else.  In each iteration the model settles, which is a rising
clock edge for it every other time, and then the link ticks. -/

namespace PinBench

open Model

/-- A serial link and the serial part of the model that it talks to. -/
structure EchoLoop where
  link : Serial.Link
  part : SerialPart
  deriving DecidableEq, Repr

/-- What the loop depends on. -/
structure EchoSetup where
  baudRate : UInt32
  timeStep : Nat
  startsHigh : Bool
  releaseTime : Nat
  script : List UInt8
  deriving DecidableEq, Repr

/-- The part of a configuration that reaches the loop. -/
def EchoSetup.ofConfig (config : Config) : EchoSetup :=
  ⟨config.uart.baudRate, config.timeStep, config.clock.startsHigh,
    config.reset.releaseTime.toNat, config.uart.script⟩

namespace EchoLoop

/-- The loop at the start of a run, in reset. -/
def start (p : EchoSetup) : EchoLoop :=
  { link := .start p.baudRate p.script
    part :=
      { SerialPart.powerUp p.baudRate (2 * p.timeStep) with clk := p.startsHigh, rst := true } }

/-- The model settles.  Reset lasts until `releaseTime`. -/
def settle (l : EchoLoop) (now releaseTime : Nat) : EchoLoop :=
  { l with part := { l.part with rst := l.part.rst && decide (now < releaseTime) }.eval }

/-- The link ticks: it drives the line into the model and sees the line out of it. -/
def exchange (l : EchoLoop) (now : Nat) : EchoLoop :=
  let (transmitter, sent) := l.link.transmitter.tick now
  let (receiver, received) := l.link.receiver.tick now l.part.uartTx
  { link :=
      { transmitter, receiver, lastReceived := received
        sent := if sent.isSome then l.link.sent + 1 else l.link.sent
        received := l.link.received ++ received.toList.toArray }
    part := { l.part with uartRx := transmitter.level } }

/-- One iteration, up to the point where the clock changes. -/
def turn (l : EchoLoop) (now releaseTime : Nat) : EchoLoop :=
  (l.settle now releaseTime).exchange now

def toggle (l : EchoLoop) : EchoLoop := { l with part := { l.part with clk := !l.part.clk } }

/-- The loop right before iteration `n`. -/
def before (p : EchoSetup) : Nat → EchoLoop
  | 0 => start p
  | n + 1 => ((before p n).turn (n * p.timeStep) p.releaseTime).toggle

/-- The loop after iteration `n`, before the clock changes. -/
def after (p : EchoSetup) (n : Nat) : EchoLoop := (before p n).turn (n * p.timeStep) p.releaseTime

variable {p : EchoSetup} {l : EchoLoop} {now releaseTime : Nat}

/-! ### One iteration -/

theorem settle_of_reset (h : (l.part.rst && decide (now < releaseTime)) = true) :
    l.settle now releaseTime =
      { l with part := { l.part with rst := true, lastClk := l.part.clk }.reset } := by
  simp only [settle, SerialPart.eval, h, if_true]

theorem settle_of_high (h : (l.part.rst && decide (now < releaseTime)) = false)
    (hclk : l.part.clk = true) (hlast : l.part.lastClk = false) :
    l.settle now releaseTime =
      { l with part := { l.part with rst := false, lastClk := true }.rise } := by
  simp [settle, SerialPart.eval, SerialPart.rise, SerialPart.speak, SerialPart.listen,
    SerialPart.nextTime, SerialPart.accept, h, hclk, hlast]

theorem settle_of_low (h : (l.part.rst && decide (now < releaseTime)) = false)
    (hclk : l.part.clk = false) :
    l.settle now releaseTime =
      { l with part := { l.part with rst := false, lastClk := false } } := by
  simp [settle, SerialPart.eval, h, hclk]

/-- The four ends have bits of the same length, and each line has the level that its transmitter
drives. -/
structure Timed (p : EchoSetup) (l : EchoLoop) : Prop where
  linkTransmitter : l.link.transmitter.bitPeriod = Serial.bitPeriod p.baudRate
  linkReceiver : l.link.receiver.bitPeriod = Serial.bitPeriod p.baudRate
  partTransmitter : l.part.transmitter.bitPeriod = Serial.bitPeriod p.baudRate
  partReceiver : l.part.receiver.bitPeriod = Serial.bitPeriod p.baudRate
  baudRate : l.part.baudRate = p.baudRate
  clockPeriod : l.part.clockPeriod = 2 * p.timeStep
  uartRx : l.part.uartRx = l.link.transmitter.level
  uartTx : l.part.uartTx = l.part.transmitter.level

/-- A high clock is a rising edge. -/
def Rising (l : EchoLoop) : Prop := l.part.clk = true → l.part.lastClk = false

theorem timed_start (p : EchoSetup) : (start p).Timed p :=
  ⟨rfl, rfl, rfl, rfl, rfl, rfl, rfl, rfl⟩

theorem Timed.settle (h : l.Timed p) (hrising : l.Rising) (now releaseTime : Nat) :
    (l.settle now releaseTime).Timed p ∧
      (l.settle now releaseTime).part.lastClk = (l.settle now releaseTime).part.clk := by
  have hbaud := h.baudRate
  cases hrst : l.part.rst && decide (now < releaseTime) with
  | true =>
    rw [settle_of_reset hrst]
    refine ⟨⟨h.linkTransmitter, h.linkReceiver, ?_, ?_, hbaud, h.clockPeriod, h.uartRx, rfl⟩, rfl⟩
    · show Serial.bitPeriod l.part.baudRate = _
      rw [hbaud]
    · show Serial.bitPeriod l.part.baudRate = _
      rw [hbaud]
  | false =>
    cases hclk : l.part.clk with
    | false =>
      rw [settle_of_low hrst hclk]
      exact ⟨⟨h.linkTransmitter, h.linkReceiver, h.partTransmitter, h.partReceiver, hbaud,
        h.clockPeriod, h.uartRx, h.uartTx⟩, hclk.symm⟩
    | true =>
      rw [settle_of_high hrst hclk (hrising hclk)]
      rw [SerialPart.rise_eq]
      refine ⟨⟨h.linkTransmitter, h.linkReceiver, ?_, ?_, hbaud, h.clockPeriod, h.uartRx, rfl⟩,
        hclk.symm⟩
      · exact (Serial.Transmitter.tick_bitPeriod _ _).trans h.partTransmitter
      · exact (Serial.Receiver.tick_bitPeriod _ _ _).trans h.partReceiver

theorem Timed.exchange (h : l.Timed p) (now : Nat) : (l.exchange now).Timed p where
  linkTransmitter := (Serial.Transmitter.tick_bitPeriod _ _).trans h.linkTransmitter
  linkReceiver := (Serial.Receiver.tick_bitPeriod _ _ _).trans h.linkReceiver
  partTransmitter := h.partTransmitter
  partReceiver := h.partReceiver
  baudRate := h.baudRate
  clockPeriod := h.clockPeriod
  uartRx := rfl
  uartTx := h.uartTx

theorem timed_before (p : EchoSetup) (n : Nat) : (before p n).Timed p ∧ (before p n).Rising := by
  induction n with
  | zero => exact ⟨timed_start p, fun _ => rfl⟩
  | succ n ih =>
    obtain ⟨hsettle, hlast⟩ := ih.1.settle ih.2 (n * p.timeStep) p.releaseTime
    have hturn := hsettle.exchange (n * p.timeStep)
    refine ⟨⟨hturn.linkTransmitter, hturn.linkReceiver, hturn.partTransmitter, hturn.partReceiver,
      hturn.baudRate, hturn.clockPeriod, hturn.uartRx, hturn.uartTx⟩, fun hclk => ?_⟩
    have hlow : ((before p n).settle (n * p.timeStep) p.releaseTime).part.clk = false := by
      simpa [before, toggle, turn, EchoLoop.exchange] using hclk
    exact hlast.trans hlow

end EchoLoop

end PinBench
