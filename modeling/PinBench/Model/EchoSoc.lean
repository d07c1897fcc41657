import PinBench.Pins.HardwareModel
import PinBench.Serial.Transmitter
import PinBench.Serial.Receiver
import PinBench.Model.Tap

/-! A small system on a chip.  It echoes every byte that it receives on its serial input, shows the
two halves of its switch word, combined, on its LEDs, and has a test access port.  It has finished
when it has received an end-of-transmission byte and every echo has been sent. -/

namespace PinBench.Model

/-- The byte that ends a session.  It is not echoed. -/
def endOfTransmission : UInt8 := 0x04

/-- The identification code of the test access port. -/
def echoSocIdcode : UInt32 := 0x4BA00477

/-- The clock period of the standard model, in nanoseconds. -/
def defaultClockPeriod : Nat := 20

/-- The words on the model's signals. -/
structure EchoPins where
  clk : Word
  rst : Word
  uartRx : Word
  uartTx : Word
  switches : Word
  leds : Word
  tck : Word
  tms : Word
  tdi : Word
  trst : Word
  tdo : Word
  receivedCount : Word
  tapState : Word
  deriving DecidableEq, Repr

namespace EchoPins

/-- The word on the pin at a place of the signal table, zero past its end. -/
def get (p : EchoPins) : SignalId → Word
  | 0 => p.clk
  | 1 => p.rst
  | 2 => p.uartRx
  | 3 => p.uartTx
  | 4 => p.switches
  | 5 => p.leds
  | 6 => p.tck
  | 7 => p.tms
  | 8 => p.tdi
  | 9 => p.trst
  | 10 => p.tdo
  | 11 => p.receivedCount
  | 12 => p.tapState
  | _ => 0

/-- The pins with another word at one place.  A write past the end is lost. -/
def set (p : EchoPins) (id : SignalId) (value : Word) : EchoPins :=
  match id with
  | 0 => { p with clk := value }
  | 1 => { p with rst := value }
  | 2 => { p with uartRx := value }
  | 3 => { p with uartTx := value }
  | 4 => { p with switches := value }
  | 5 => { p with leds := value }
  | 6 => { p with tck := value }
  | 7 => { p with tms := value }
  | 8 => { p with tdi := value }
  | 9 => { p with trst := value }
  | 10 => { p with tdo := value }
  | 11 => { p with receivedCount := value }
  | 12 => { p with tapState := value }
  | _ => p

def count : Nat := 13

theorem get_set_self (p : EchoPins) {id : SignalId} (h : id < count) (value : Word) :
    (p.set id value).get id = value := by
  match id, h with
  | 0, _ | 1, _ | 2, _ | 3, _ | 4, _ | 5, _ | 6, _ => rfl
  | 7, _ | 8, _ | 9, _ | 10, _ | 11, _ | 12, _ => rfl
  | n + 13, h => exact absurd h (Nat.not_lt.2 (Nat.le_add_left 13 n))

theorem get_set_of_ne (p : EchoPins) {id other : SignalId} (h : other ≠ id) (value : Word) :
    (p.set id value).get other = p.get other := by
  unfold set
  split <;> unfold get <;> split <;> simp_all

end EchoPins

/-- The model: its pins, the state behind them, and a record of the bytes received. -/
structure EchoSoc where
  baudRate : UInt32
  clockPeriod : Nat
  pins : EchoPins
  /-- Rising clock edges outside reset. -/
  cycles : Nat
  lastClk : Bool
  receiver : Serial.Receiver
  transmitter : Serial.Transmitter
  tap : Tap
  received : Array UInt8
  endSeen : Bool
  deriving DecidableEq, Repr

namespace EchoSoc

def table : List Signal :=
  [.input "clk" 1, .input "rst" 1, .input "i_uart_rx" 1, .output "o_uart_tx" 1, .input "i_sw" 32,
    .output "o_led" 16, .input "i_jtag_tck" 1, .input "i_jtag_tms" 1, .input "i_jtag_tdi" 1,
    .input "i_jtag_trst_n" 1, .output "o_jtag_tdo" 1, .output "soc.uart.rx_count" 32,
    .output "soc.tap.state" 4]

/-- A model that has not been clocked yet.  Both serial lines rest high. -/
def powerUp (baudRate : UInt32) (clockPeriod : Nat) : EchoSoc :=
  { baudRate, clockPeriod
    pins := { clk := 0, rst := 0, uartRx := 1, uartTx := 1, switches := 0, leds := 0, tck := 0,
              tms := 0, tdi := 0, trst := 0, tdo := 0, receivedCount := 0, tapState := 0 }
    cycles := 0, lastClk := false, receiver := .idle baudRate, transmitter := .idle baudRate
    tap := .powerUp echoSocIdcode, received := #[], endSeen := false }

/-- The model with the usual line rate and clock. -/
def standard : EchoSoc := powerUp Serial.defaultBaudRate defaultClockPeriod

/-- The word on a signal of the table. -/
def read (m : EchoSoc) (id : SignalId) : Word := m.pins.get id

/-- The model with another word on one signal. -/
def write (m : EchoSoc) (id : SignalId) (value : Word) : EchoSoc :=
  { m with pins := m.pins.set id value }

/-- Reset of the serial part.  The bytes received stay on record. -/
def resetSerial (m : EchoSoc) : EchoSoc :=
  { m with
    receiver := .idle m.baudRate
    transmitter := .idle m.baudRate
    pins := { m.pins with uartTx := 1 } }

/-- A byte has been received: it is recorded, and echoed unless it ends the session. -/
def accept (m : EchoSoc) (byte : UInt8) : EchoSoc :=
  let received := m.received.push byte
  { m with
    pins := { m.pins with receivedCount := BitVec.ofNat 64 received.size }
    endSeen := m.endSeen || byte == endOfTransmission
    transmitter :=
      if byte = endOfTransmission then m.transmitter else m.transmitter.enqueue [byte]
    received }

/-- A rising clock edge: the receiver samples the line, then the transmitter drives its own. -/
def rise (m : EchoSoc) : EchoSoc :=
  let cycles := m.cycles + 1
  let now := cycles * m.clockPeriod
  let (receiver, byte) := m.receiver.tick now m.pins.uartRx.isHigh
  let m := { m with cycles, receiver }
  let m := match byte with
    | some byte => m.accept byte
    | none => m
  let transmitter := (m.transmitter.tick now).1
  { m with transmitter, pins := { m.pins with uartTx := Word.ofLevel transmitter.level } }

/-- The serial part: held in reset, clocked, or left alone. -/
def evalSerial (m : EchoSoc) : EchoSoc :=
  let clk := m.pins.clk.isHigh
  let rising := clk && !m.lastClk
  let m := { m with lastClk := clk }
  if m.pins.rst.isHigh then m.resetSerial
  else if rising then m.rise
  else m

/-- The LEDs show each switch of the lower half or its partner of the upper half. -/
def evalLeds (m : EchoSoc) : EchoSoc :=
  let w := m.pins.switches
  { m with pins := { m.pins with leds := (w &&& 0xFFFF) ||| ((w >>> 16) &&& 0xFFFF) } }

/-- The test access port: held in reset or shown its inputs. -/
def evalTap (m : EchoSoc) : EchoSoc :=
  let tap :=
    if m.pins.trst.isHigh then
      m.tap.clock m.pins.tck.isHigh m.pins.tms.isHigh m.pins.tdi.isHigh
    else m.tap.reset
  { m with
    tap
    pins := { m.pins with
      tdo := Word.ofLevel tap.tdo
      tapState := BitVec.ofNat 64 tap.state.code } }

def eval (m : EchoSoc) : EchoSoc := m.evalSerial.evalLeds.evalTap

/-- Whether the session has ended and every echo has been sent. -/
def finished (m : EchoSoc) : Bool := m.endSeen && m.transmitter.isIdle

instance : HardwareModel EchoSoc where
  signals _ := table
  read := read
  write := write
  eval := eval
  finished := finished

instance : StoresWrites EchoSoc where
  read_write_self m _ value h := m.pins.get_set_self h value
  read_write_of_ne m _ _ value h := m.pins.get_set_of_ne h value
  signals_write _ _ _ := rfl

end EchoSoc

end PinBench.Model
