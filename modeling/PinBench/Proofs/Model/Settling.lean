import PinBench.Proofs.Model.TapPart

/-! When the echoing model has nothing left to do.  A model is settled if it has seen the levels of
its two clocks, if what is held in reset is at rest, and if its outputs show what stands behind them
(`Settled`).  An evaluation changes nothing if and only if the model is settled
(`eval_eq_self_iff`), and every evaluation leaves it settled, so that a second one without a write
in between leaves the very same model (`settles_at_once`). -/

namespace PinBench.Model.EchoSoc

/-- What the LEDs show of the switches. -/
def ledsOf (switches : Word) : Word :=
  (switches &&& 0xFFFF) ||| ((switches >>> 16) &&& 0xFFFF)

/-- A model that has taken note of all its inputs. -/
structure Settled (m : EchoSoc) : Prop where
  clock : m.lastClk = m.pins.clk.isHigh
  reset : m.pins.rst.isHigh = true →
    m.receiver = .idle m.baudRate ∧ m.transmitter = .idle m.baudRate ∧ m.pins.uartTx = 1
  leds : m.pins.leds = ledsOf m.pins.switches
  testClock : m.pins.trst.isHigh = true → m.tap.lastTck = m.pins.tck.isHigh
  testReset : m.pins.trst.isHigh = false →
    m.tap.state = .testLogicReset ∧ m.tap.instruction = idcodeInstruction ∧ m.tap.tdo = false
  tdo : m.pins.tdo = Word.ofLevel m.tap.tdo
  tapState : m.pins.tapState = BitVec.ofNat 64 m.tap.state.code

variable {m : EchoSoc}

/-! ### A settled model stays as it is -/

theorem evalSerial_of_settled (h : m.Settled) : m.evalSerial = m := by
  have hseen : { m with lastClk := m.pins.clk.isHigh } = m := by rw [← h.clock]
  have hstill : (m.pins.clk.isHigh && !m.lastClk) = false := by
    rw [h.clock, Bool.and_not_self]
  simp only [evalSerial, hseen, hstill, Bool.false_eq_true, if_false]
  split
  · rename_i hreset
    obtain ⟨hreceiver, htransmitter, hline⟩ := h.reset hreset
    rw [resetSerial, ← hreceiver, ← htransmitter, ← hline]
  · rfl

theorem evalLeds_of_settled (h : m.Settled) : m.evalLeds = m := by
  have hleds : m.evalLeds = { m with pins := { m.pins with leds := ledsOf m.pins.switches } } := rfl
  rw [hleds, ← h.leds]

theorem reset_tap_of_settled (h : m.Settled) (htrst : m.pins.trst.isHigh = false) :
    m.tap.reset = m.tap := by
  obtain ⟨hstate, hinstruction, htdo⟩ := h.testReset htrst
  rw [Tap.reset, ← hstate, ← hinstruction, ← htdo]

theorem evalTap_of_settled (h : m.Settled) : m.evalTap = m := by
  have htap : (if m.pins.trst.isHigh then
      m.tap.clock m.pins.tck.isHigh m.pins.tms.isHigh m.pins.tdi.isHigh else m.tap.reset) =
        m.tap := by
    split
    · rename_i htrst
      have hstill : m.tap.see ⟨m.pins.tck.isHigh, m.pins.tms.isHigh, m.pins.tdi.isHigh⟩ = m.tap :=
        Tap.see_of_still (h.testClock htrst)
      exact hstill
    · rename_i htrst
      exact reset_tap_of_settled h (Bool.eq_false_iff.mpr htrst)
  simp only [evalTap, htap]
  rw [← h.tdo, ← h.tapState]

theorem eval_of_settled (h : m.Settled) : m.eval = m := by
  rw [eval, evalSerial_of_settled h, evalLeds_of_settled h, evalTap_of_settled h]

/-! ### An evaluation settles the model -/

/-- A rising clock edge reaches the serial part alone. -/
theorem rise_frame (m : EchoSoc) :
    ∃ uartTx receivedCount cycles receiver transmitter received endSeen, m.rise = { m with
      pins := { m.pins with uartTx := uartTx, receivedCount := receivedCount }
      cycles := cycles, receiver := receiver, transmitter := transmitter
      received := received, endSeen := endSeen } := by
  simp only [rise]
  cases (m.receiver.tick ((m.cycles + 1) * m.clockPeriod) m.pins.uartRx.isHigh).2 with
  | none => exact ⟨_, _, _, _, _, _, _, rfl⟩
  | some byte => exact ⟨_, _, _, _, _, _, _, rfl⟩

/-- So does the serial part's evaluation, which takes note of the clock and, in reset, puts the part
to rest. -/
theorem evalSerial_frame (m : EchoSoc) :
    ∃ uartTx receivedCount cycles receiver transmitter received endSeen, m.evalSerial = { m with
      pins := { m.pins with uartTx := uartTx, receivedCount := receivedCount }
      lastClk := m.pins.clk.isHigh
      cycles := cycles, receiver := receiver, transmitter := transmitter
      received := received, endSeen := endSeen } ∧
    (m.pins.rst.isHigh = true →
      receiver = .idle m.baudRate ∧ transmitter = .idle m.baudRate ∧ uartTx = 1) := by
  simp only [evalSerial]
  split
  · exact ⟨_, _, _, _, _, _, _, rfl, fun _ => ⟨rfl, rfl, rfl⟩⟩
  · rename_i hreset
    split
    · obtain ⟨_, _, _, _, _, _, _, hrise⟩ :=
        rise_frame { m with lastClk := m.pins.clk.isHigh }
      exact ⟨_, _, _, _, _, _, _, hrise, fun h => absurd h hreset⟩
    · exact ⟨_, _, _, _, _, _, _, rfl, fun h => absurd h hreset⟩

theorem tap_evalTap_of_high (h : m.pins.trst.isHigh = true) :
    m.evalTap.tap = m.tap.clock m.pins.tck.isHigh m.pins.tms.isHigh m.pins.tdi.isHigh := if_pos h

theorem tap_evalTap_of_low (h : m.pins.trst.isHigh = false) : m.evalTap.tap = m.tap.reset :=
  if_neg (Bool.eq_false_iff.mp h)

/-- The test access port comes last, and takes nothing away from what is settled before it. -/
theorem settled_evalTap (hclock : m.lastClk = m.pins.clk.isHigh)
    (hreset : m.pins.rst.isHigh = true →
      m.receiver = .idle m.baudRate ∧ m.transmitter = .idle m.baudRate ∧ m.pins.uartTx = 1)
    (hleds : m.pins.leds = ledsOf m.pins.switches) : m.evalTap.Settled where
  clock := hclock
  reset := hreset
  leds := hleds
  testClock htrst := by
    have hhigh : m.pins.trst.isHigh = true := htrst
    rw [tap_evalTap_of_high hhigh]
    rfl
  testReset htrst := by
    have hlow : m.pins.trst.isHigh = false := htrst
    rw [tap_evalTap_of_low hlow]
    exact ⟨rfl, rfl, rfl⟩
  tdo := rfl
  tapState := rfl

theorem settled_eval (m : EchoSoc) : m.eval.Settled := by
  obtain ⟨_, _, _, _, _, _, _, hserial, hreset⟩ := evalSerial_frame m
  rw [eval, hserial]
  exact settled_evalTap rfl hreset rfl

/-- An evaluation changes nothing exactly if the model is settled. -/
theorem eval_eq_self_iff : m.eval = m ↔ m.Settled := by
  constructor
  · intro h
    rw [← h]
    exact settled_eval m
  · exact eval_of_settled

/-- Whatever the model has been through and whatever is on its pins, the first evaluation settles it
and the second leaves all of it as it is. -/
theorem settles_at_once (m : EchoSoc) : m.eval.Settled ∧ m.eval.eval = m.eval :=
  ⟨settled_eval m, eval_of_settled (settled_eval m)⟩

end PinBench.Model.EchoSoc
