import PinBench.Model.EchoSoc

/-! The serial part of the echoing model: its clock, its reset, its two serial lines and what stands
behind them.  The part settles by itself: the switches, the LEDs and the test access port have no
effect on it (`serialPart_eval`), and neither has a write to any of their pins. -/

namespace PinBench

/-- A pin of one bit holds the level that is driven onto it. -/
theorem Word.isHigh_ofLevel_lowMask_one (level : Bool) :
    (ofLevel level &&& lowMask 1).isHigh = level := by
  cases level <;> rfl

namespace Model

open Serial

/-- What the echoing model's serial part depends on, with its lines as levels. -/
structure SerialPart where
  baudRate : UInt32
  clockPeriod : Nat
  clk : Bool
  rst : Bool
  uartRx : Bool
  uartTx : Bool
  cycles : Nat
  lastClk : Bool
  receiver : Receiver
  transmitter : Transmitter
  received : Array UInt8
  endSeen : Bool
  deriving DecidableEq, Repr

namespace SerialPart

/-- The part of a model that has not been clocked yet. -/
def powerUp (baudRate : UInt32) (clockPeriod : Nat) : SerialPart :=
  { baudRate, clockPeriod, clk := false, rst := false, uartRx := true, uartTx := true, cycles := 0
    lastClk := false, receiver := .idle baudRate, transmitter := .idle baudRate, received := #[]
    endSeen := false }

def reset (p : SerialPart) : SerialPart :=
  { p with receiver := .idle p.baudRate, transmitter := .idle p.baudRate, uartTx := true }

/-- A byte has been received. -/
def accept (p : SerialPart) (byte : UInt8) : SerialPart :=
  { p with
    received := p.received.push byte
    endSeen := p.endSeen || byte == endOfTransmission
    transmitter :=
      if byte = endOfTransmission then p.transmitter else p.transmitter.enqueue [byte] }

/-- The model's time at its next rising clock edge. -/
def nextTime (p : SerialPart) : Nat := (p.cycles + 1) * p.clockPeriod

/-- The part with what its receiver made of the line at the next rising clock edge. -/
def listen (p : SerialPart) : SerialPart :=
  let (receiver, byte) := p.receiver.tick p.nextTime p.uartRx
  let p := { p with receiver }
  match byte with
  | some byte => p.accept byte
  | none => p

/-- The part with what its transmitter drives at the next rising clock edge. -/
def speak (p : SerialPart) : SerialPart :=
  let transmitter := (p.transmitter.tick p.nextTime).1
  { p with transmitter, uartTx := transmitter.level }

/-- A rising clock edge: the receiver samples its line, then the transmitter drives its own. -/
def rise (p : SerialPart) : SerialPart :=
  { p.listen.speak with cycles := p.cycles + 1 }

def eval (p : SerialPart) : SerialPart :=
  let q := { p with lastClk := p.clk }
  if p.rst then q.reset
  else if p.clk && !p.lastClk then q.rise
  else q

/-- Whether the session has ended and every echo has been sent. -/
def finished (p : SerialPart) : Bool := p.endSeen && p.transmitter.isIdle

/-- The bytes that the model echoes, of those that it receives. -/
def echoes (bytes : List UInt8) : List UInt8 := bytes.filter (· != endOfTransmission)

variable (p : SerialPart)

/-! ### A rising clock edge -/

theorem listen_eq : p.listen =
    { p with
      receiver := (p.receiver.tick p.nextTime p.uartRx).1
      transmitter :=
        p.transmitter.enqueue (echoes (p.receiver.tick p.nextTime p.uartRx).2.toList)
      received := p.received ++ (p.receiver.tick p.nextTime p.uartRx).2.toList.toArray
      endSeen := p.endSeen ||
        (p.receiver.tick p.nextTime p.uartRx).2.toList.any (· == endOfTransmission) } := by
  rcases htick : p.receiver.tick p.nextTime p.uartRx with ⟨receiver, byte⟩
  cases byte with
  | none => simp [listen, htick, echoes, Transmitter.enqueue]
  | some byte =>
    by_cases hend : byte = endOfTransmission
    · simp [listen, accept, htick, echoes, hend, Transmitter.enqueue]
    · simp [listen, accept, htick, echoes, hend]

/-- What a rising clock edge does.  The echo of a byte joins the queue before the transmitter
ticks. -/
theorem rise_eq : p.rise =
    { p with
      receiver := (p.receiver.tick p.nextTime p.uartRx).1
      transmitter := ((p.transmitter.enqueue
        (echoes (p.receiver.tick p.nextTime p.uartRx).2.toList)).tick p.nextTime).1
      uartTx := ((p.transmitter.enqueue
        (echoes (p.receiver.tick p.nextTime p.uartRx).2.toList)).tick p.nextTime).1.level
      received := p.received ++ (p.receiver.tick p.nextTime p.uartRx).2.toList.toArray
      cycles := p.cycles + 1
      endSeen := p.endSeen ||
        (p.receiver.tick p.nextTime p.uartRx).2.toList.any (· == endOfTransmission) } := by
  rw [rise, listen_eq]
  rfl

theorem eval_clk : p.eval.clk = p.clk := by
  simp only [eval]
  split
  · rfl
  · split
    · rw [rise_eq]
    · rfl

theorem eval_rst : p.eval.rst = p.rst := by
  simp only [eval]
  split
  · rfl
  · split
    · rw [rise_eq]
    · rfl

end SerialPart

namespace EchoSoc

/-- The serial part of a model. -/
def serialPart (m : EchoSoc) : SerialPart :=
  { baudRate := m.baudRate, clockPeriod := m.clockPeriod, clk := m.pins.clk.isHigh
    rst := m.pins.rst.isHigh, uartRx := m.pins.uartRx.isHigh
    uartTx := (m.pins.uartTx &&& Word.lowMask 1).isHigh, cycles := m.cycles, lastClk := m.lastClk
    receiver := m.receiver, transmitter := m.transmitter, received := m.received
    endSeen := m.endSeen }

theorem serialPart_powerUp (baudRate : UInt32) (clockPeriod : Nat) :
    (powerUp baudRate clockPeriod).serialPart = .powerUp baudRate clockPeriod := by
  have hhigh : ((1 : Word) &&& Word.lowMask 1).isHigh = true := Word.isHigh_ofLevel_lowMask_one true
  simp only [serialPart, powerUp, SerialPart.powerUp, hhigh]
  rfl

theorem serialPart_rise (m : EchoSoc) : m.rise.serialPart = m.serialPart.rise := by
  rcases htick : m.receiver.tick ((m.cycles + 1) * m.clockPeriod) m.pins.uartRx.isHigh with
    ⟨receiver, byte⟩
  cases byte <;>
    simp only [EchoSoc.rise, EchoSoc.accept, SerialPart.rise, SerialPart.speak, SerialPart.listen,
      SerialPart.accept, SerialPart.nextTime, serialPart, htick, Word.isHigh_ofLevel_lowMask_one]

theorem serialPart_resetSerial (m : EchoSoc) : m.resetSerial.serialPart = m.serialPart.reset := by
  have hhigh : ((1 : Word) &&& Word.lowMask 1).isHigh = true := Word.isHigh_ofLevel_lowMask_one true
  simp only [resetSerial, serialPart, SerialPart.reset, hhigh]

/-- The serial part of a model that settles is the serial part, settled. -/
theorem serialPart_eval (m : EchoSoc) : m.eval.serialPart = m.serialPart.eval := by
  have hrest : m.eval.serialPart = m.evalSerial.serialPart := rfl
  rw [hrest]
  simp only [evalSerial, SerialPart.eval]
  have hclk : m.serialPart.clk = m.pins.clk.isHigh := rfl
  have hrst : m.serialPart.rst = m.pins.rst.isHigh := rfl
  have hlast : m.serialPart.lastClk = m.lastClk := rfl
  rw [hclk, hrst, hlast]
  split
  · exact serialPart_resetSerial _
  · split
    · exact serialPart_rise _
    · rfl

/-! ### Writes -/

theorem serialPart_write_clk (m : EchoSoc) (level : Bool) :
    (m.write 0 (Word.ofLevel level &&& Word.lowMask 1)).serialPart =
      { m.serialPart with clk := level } := by
  simp only [serialPart, write, EchoPins.set, Word.isHigh_ofLevel_lowMask_one]

theorem serialPart_write_rst (m : EchoSoc) (level : Bool) :
    (m.write 1 (Word.ofLevel level &&& Word.lowMask 1)).serialPart =
      { m.serialPart with rst := level } := by
  simp only [serialPart, write, EchoPins.set, Word.isHigh_ofLevel_lowMask_one]

theorem serialPart_write_uartRx (m : EchoSoc) (level : Bool) :
    (m.write 2 (Word.ofLevel level &&& Word.lowMask 1)).serialPart =
      { m.serialPart with uartRx := level } := by
  simp only [serialPart, write, EchoPins.set, Word.isHigh_ofLevel_lowMask_one]

/-- A write past the four serial pins. -/
theorem serialPart_write (m : EchoSoc) {id : SignalId} (h : 4 ≤ id) (value : Word) :
    (m.write id value).serialPart = m.serialPart := by
  unfold write EchoPins.set
  split <;> first | rfl | (exfalso; revert h; decide)

end EchoSoc

end Model

end PinBench
