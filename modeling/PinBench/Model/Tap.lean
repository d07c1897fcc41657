import PinBench.Word

/-! A test access port with the instructions IDCODE and BYPASS.  The controller moves on rising
edges of the test clock and its registers shift with them; the output follows on falling edges.
IDCODE is in force after a reset, and every other instruction selects the one-bit bypass
register. -/

namespace PinBench.Model

inductive TapState where
  | testLogicReset
  | runTestIdle
  | selectDrScan
  | captureDr
  | shiftDr
  | exit1Dr
  | pauseDr
  | exit2Dr
  | updateDr
  | selectIrScan
  | captureIr
  | shiftIr
  | exit1Ir
  | pauseIr
  | exit2Ir
  | updateIr
  deriving DecidableEq, Repr

namespace TapState

def all : List TapState :=
  [.testLogicReset, .runTestIdle, .selectDrScan, .captureDr, .shiftDr, .exit1Dr, .pauseDr,
    .exit2Dr, .updateDr, .selectIrScan, .captureIr, .shiftIr, .exit1Ir, .pauseIr, .exit2Ir,
    .updateIr]

/-- The number of a state: its place in the order. -/
def code : TapState → Nat
  | .testLogicReset => 0
  | .runTestIdle => 1
  | .selectDrScan => 2
  | .captureDr => 3
  | .shiftDr => 4
  | .exit1Dr => 5
  | .pauseDr => 6
  | .exit2Dr => 7
  | .updateDr => 8
  | .selectIrScan => 9
  | .captureIr => 10
  | .shiftIr => 11
  | .exit1Ir => 12
  | .pauseIr => 13
  | .exit2Ir => 14
  | .updateIr => 15

/-- The state that a rising edge of the test clock leads to. -/
def next (s : TapState) (tms : Bool) : TapState :=
  match s, tms with
  | .testLogicReset, false | .runTestIdle, false | .updateDr, false | .updateIr, false =>
    .runTestIdle
  | .testLogicReset, true | .selectIrScan, true => .testLogicReset
  | .runTestIdle, true | .updateDr, true | .updateIr, true => .selectDrScan
  | .selectDrScan, false => .captureDr
  | .selectDrScan, true => .selectIrScan
  | .captureDr, false | .shiftDr, false | .exit2Dr, false => .shiftDr
  | .captureDr, true | .shiftDr, true => .exit1Dr
  | .exit1Dr, false | .pauseDr, false => .pauseDr
  | .exit1Dr, true | .exit2Dr, true => .updateDr
  | .pauseDr, true => .exit2Dr
  | .selectIrScan, false => .captureIr
  | .captureIr, false | .shiftIr, false | .exit2Ir, false => .shiftIr
  | .captureIr, true | .shiftIr, true => .exit1Ir
  | .exit1Ir, false | .pauseIr, false => .pauseIr
  | .exit1Ir, true | .exit2Ir, true => .updateIr
  | .pauseIr, true => .exit2Ir

end TapState

def instructionBits : Nat := 5

def idcodeInstruction : UInt8 := 0x01

/-- The usual code of the instruction that selects the bypass register. -/
def bypassInstruction : UInt8 := 0x1F

structure Tap where
  idcode : UInt32
  state : TapState
  instruction : UInt8
  instructionShift : UInt8
  dataShift : UInt64
  /-- The width of the data register that was captured last. -/
  dataBits : Nat
  tdo : Bool
  lastTck : Bool
  deriving DecidableEq, Repr

namespace Tap

/-- A port that has just been powered up. -/
def powerUp (idcode : UInt32) : Tap :=
  { idcode, state := .testLogicReset, instruction := idcodeInstruction, instructionShift := 0,
    dataShift := 0, dataBits := 1, tdo := false, lastTck := false }

/-- Test reset, independent of the clock. -/
def reset (t : Tap) : Tap :=
  { t with state := .testLogicReset, instruction := idcodeInstruction, tdo := false }

/-- One bit shifted into a register at position `top`, with the register's low bit shifted out. -/
def shiftIn (register : UInt64) (top : Nat) (bit : Bool) : UInt64 :=
  (register >>> 1) ||| ((if bit then (1 : UInt64) else 0) <<< UInt64.ofNat top)

/-- What a rising edge does to the registers. -/
def shift (t : Tap) (tdi : Bool) : Tap :=
  match t.state with
  | .captureDr =>
    if t.instruction = idcodeInstruction then
      { t with dataShift := t.idcode.toUInt64, dataBits := 32 }
    else { t with dataShift := 0, dataBits := 1 }
  | .shiftDr =>
    { t with dataShift := shiftIn t.dataShift (t.dataBits - 1) tdi }
  | .captureIr => { t with instructionShift := 1 }
  | .shiftIr =>
    { t with
      instructionShift := (t.instructionShift >>> 1) ||| ((if tdi then (1 : UInt8) else 0) <<< 4) }
  | _ => t

/-- A rising edge: the registers shift, then the controller moves. -/
def rise (t : Tap) (tms tdi : Bool) : Tap :=
  let shifted := t.shift tdi
  let state := t.state.next tms
  { shifted with
    state
    instruction := if state = .testLogicReset then idcodeInstruction else shifted.instruction }

/-- A falling edge: the output follows the register that shifts, and a new instruction comes into
force. -/
def fall (t : Tap) : Tap :=
  match t.state with
  | .shiftDr => { t with tdo := t.dataShift &&& 1 != 0 }
  | .shiftIr => { t with tdo := t.instructionShift &&& 1 != 0 }
  | .updateIr => { t with instruction := t.instructionShift, tdo := false }
  | _ => { t with tdo := false }

/-- The port after it saw the levels of its three inputs. -/
def clock (t : Tap) (tck tms tdi : Bool) : Tap :=
  let moved := match t.lastTck, tck with
    | false, true => t.rise tms tdi
    | true, false => t.fall
    | _, _ => t
  { moved with lastTck := tck }

end Tap

end PinBench.Model
