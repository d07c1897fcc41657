import PinBench.Jtag.Record

/-! Clocking one request into a test access port.  Each step is one phase of the test clock.  The
low phase sets up mode-select and data-in; the high phase captures data-out, which the port changed
while the clock was low, and then raises the clock.  A scan gives its reply with its last step. -/

namespace PinBench.Jtag

/-- Clock periods with mode-select high that a reset request takes. -/
def resetCycles : Nat := 5

/-- The levels on the port's inputs. -/
structure Lines where
  tck : Bool
  tms : Bool
  tdi : Bool
  deriving DecidableEq, Repr

/-- The levels between requests, before the first one. -/
def Lines.idle : Lines := ⟨true, true, false⟩

inductive Waveform where
  | reset
  | tms
  | scan (flipTms : Bool)
  deriving DecidableEq, Repr

/-- A request that is being clocked. -/
structure Transfer where
  waveform : Waveform
  record : Record
  /-- The bit under way. -/
  bit : Nat
  total : Nat
  /-- The clock is in the low phase of this bit. -/
  low : Bool
  deriving DecidableEq, Repr

namespace Transfer

/-- The request of a record with a command, before its first step.  A stop request has no
waveform. -/
def ofCommand? (command : Command) (record : Record) : Option Transfer :=
  let record := { record with captured := .ofBytes [] }
  match command with
  | .reset => some ⟨.reset, record, 0, resetCycles, false⟩
  | .tmsSequence => some ⟨.tms, record, 0, record.bits.toNat, false⟩
  | .scan => some ⟨.scan false, record, 0, record.bits.toNat, false⟩
  | .scanFlipTms => some ⟨.scan true, record, 0, record.bits.toNat, false⟩
  | .stop => none

def tms (t : Transfer) : Bool :=
  match t.waveform with
  | .reset => true
  | .tms => Bytes.bit t.record.out t.bit
  | .scan flipTms => flipTms && t.bit + 1 == t.total

def tdi (t : Transfer) : Bool :=
  match t.waveform with
  | .reset | .tms => false
  | .scan _ => Bytes.bit t.record.out t.bit

/-- The transfer after the high phase of the bit under way, with data-out at `tdo`. -/
def capture (t : Transfer) (tdo : Bool) : Transfer :=
  let record := match t.waveform with
    | .scan _ => { t.record with captured := Bytes.setBit t.record.captured t.bit tdo }
    | .reset | .tms => t.record
  { t with record, low := false, bit := t.bit + 1 }

/-- The reply to a request that has been clocked. -/
def reply? (t : Transfer) : Option Record :=
  match t.waveform with
  | .scan _ => some t.record
  | .reset | .tms => none

end Transfer

/-- The lines and the request that is being clocked, if any. -/
structure Shifter where
  transfer : Option Transfer
  lines : Lines
  deriving DecidableEq, Repr

namespace Shifter

def idle : Shifter := ⟨none, .idle⟩

def busy (s : Shifter) : Bool := s.transfer.isSome

/-- A request is next.  A stop request changes nothing. -/
def load (s : Shifter) (command : Command) (record : Record) : Shifter :=
  match Transfer.ofCommand? command record with
  | some t => { s with transfer := some t }
  | none => s

/-- One phase of the test clock, with data-out at `tdo`.  A request without bits takes one step
that leaves the lines alone. -/
def step (s : Shifter) (tdo : Bool) : Shifter × Option Record :=
  match s.transfer with
  | none => (s, none)
  | some t =>
    if t.bit < t.total then
      if t.low then
        let t := t.capture tdo
        let lines := { s.lines with tck := true }
        if t.bit < t.total then (⟨some t, lines⟩, none) else (⟨none, lines⟩, t.reply?)
      else (⟨some { t with low := true }, ⟨false, t.tms, t.tdi⟩⟩, none)
    else (⟨none, s.lines⟩, t.reply?)

end Shifter

end PinBench.Jtag
