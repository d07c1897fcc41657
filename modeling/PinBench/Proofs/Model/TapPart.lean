import PinBench.Jtag.Shifter
import PinBench.Model.EchoSoc
import PinBench.Proofs.Model.SerialPart

/-! The test access port of the echoing model with its pins.  It settles by itself: neither the
serial part, the switches nor the LEDs have an effect on it (`tapPart_eval`), and a write to another
pin leaves it alone. -/

namespace PinBench.Model

open Jtag

/-- The port after it saw the levels of its three inputs. -/
def Tap.see (t : Tap) (lines : Lines) : Tap := t.clock lines.tck lines.tms lines.tdi

/-- Lines on which the clock has not moved change nothing. -/
theorem Tap.see_of_still {t : Tap} {lines : Lines} (h : t.lastTck = lines.tck) :
    t.see lines = t := by
  obtain ⟨idcode, state, instruction, instructionShift, dataShift, dataBits, tdo, lastTck⟩ := t
  have hlast : lastTck = lines.tck := h
  subst hlast
  unfold see clock
  cases lines.tck <;> rfl

theorem Tap.lastTck_see (t : Tap) (lines : Lines) : (t.see lines).lastTck = lines.tck := rfl

theorem Tap.reset_powerUp (idcode : UInt32) : (Tap.powerUp idcode).reset = .powerUp idcode := rfl

/-- The test access port, with its pins as levels. -/
structure TapPart where
  tap : Tap
  lines : Lines
  /-- The test reset, active low. -/
  trst : Bool
  tdo : Bool
  deriving DecidableEq, Repr

namespace TapPart

/-- The port is held in reset or sees its inputs, and its output follows. -/
def eval (p : TapPart) : TapPart :=
  let tap := if p.trst then p.tap.see p.lines else p.tap.reset
  { p with tap, tdo := tap.tdo }

end TapPart

namespace EchoSoc

def tapPart (m : EchoSoc) : TapPart :=
  { tap := m.tap, lines := ⟨m.pins.tck.isHigh, m.pins.tms.isHigh, m.pins.tdi.isHigh⟩
    trst := m.pins.trst.isHigh, tdo := (m.pins.tdo &&& Word.lowMask 1).isHigh }

theorem tapPart_evalSerial (m : EchoSoc) : m.evalSerial.tapPart = m.tapPart := by
  have hrise (m : EchoSoc) : m.rise.tapPart = m.tapPart := by
    simp only [rise]
    cases (m.receiver.tick ((m.cycles + 1) * m.clockPeriod) m.pins.uartRx.isHigh).2 <;> rfl
  simp only [evalSerial]
  split
  · rfl
  · split
    · exact hrise _
    · rfl

theorem tapPart_eval (m : EchoSoc) : m.eval.tapPart = m.tapPart.eval := by
  have hleds : m.evalSerial.evalLeds.tapPart = m.evalSerial.tapPart := rfl
  have htap (m : EchoSoc) : m.evalTap.tapPart = m.tapPart.eval := by
    simp only [evalTap, tapPart, TapPart.eval, Word.isHigh_ofLevel_lowMask_one]
    rfl
  rw [eval, htap, hleds, tapPart_evalSerial]

/-! ### Writes -/

theorem tapPart_write_tck (m : EchoSoc) (level : Bool) :
    (m.write 6 (Word.ofLevel level &&& Word.lowMask 1)).tapPart =
      { m.tapPart with lines := { m.tapPart.lines with tck := level } } := by
  simp only [tapPart, write, EchoPins.set, Word.isHigh_ofLevel_lowMask_one]

theorem tapPart_write_tms (m : EchoSoc) (level : Bool) :
    (m.write 7 (Word.ofLevel level &&& Word.lowMask 1)).tapPart =
      { m.tapPart with lines := { m.tapPart.lines with tms := level } } := by
  simp only [tapPart, write, EchoPins.set, Word.isHigh_ofLevel_lowMask_one]

theorem tapPart_write_tdi (m : EchoSoc) (level : Bool) :
    (m.write 8 (Word.ofLevel level &&& Word.lowMask 1)).tapPart =
      { m.tapPart with lines := { m.tapPart.lines with tdi := level } } := by
  simp only [tapPart, write, EchoPins.set, Word.isHigh_ofLevel_lowMask_one]

theorem tapPart_write_trst (m : EchoSoc) (level : Bool) :
    (m.write 9 (Word.ofLevel level &&& Word.lowMask 1)).tapPart =
      { m.tapPart with trst := level } := by
  simp only [tapPart, write, EchoPins.set, Word.isHigh_ofLevel_lowMask_one]

theorem tapPart_write (m : EchoSoc) {id : SignalId} (h : id < 6 ∨ 10 < id) (value : Word) :
    (m.write id value).tapPart = m.tapPart := by
  unfold write EchoPins.set
  split <;> first | rfl | (exfalso; revert h; decide)

end EchoSoc

end PinBench.Model
