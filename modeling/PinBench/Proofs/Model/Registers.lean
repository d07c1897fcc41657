import Mathlib.Algebra.Group.Nat.Defs
import PinBench.Proofs.Model.Scanning

/-! The registers of a test access port, whatever is done to it: levels are shown to it in any
order, and test resets come at any point of a scan.  A register never holds more bits than it is
wide, the data register is one bit or 32 bits wide, and in test-logic reset IDCODE is in force
(`WellFormed`).  Only the falling clock of an update, the way into test-logic reset and a test reset
bring an instruction into force (`registers_wellFormed`). -/

namespace PinBench.Model

namespace Tap

/-- What can be done to a port: its inputs take these levels, or it is reset. -/
inductive Use where
  | clock (tck tms tdi : Bool)
  | reset
  deriving DecidableEq, Repr

def meet (t : Tap) : Use → Tap
  | .clock tck tms tdi => t.clock tck tms tdi
  | .reset => t.reset

def run (t : Tap) (uses : List Use) : Tap := uses.foldl meet t

theorem run_concat (t : Tap) (uses : List Use) (use : Use) :
    t.run (uses ++ [use]) = (t.run uses).meet use := by
  simp only [run, List.foldl_append, List.foldl_cons, List.foldl_nil]

/-- A use that brings an instruction into force. -/
inductive Brings (t : Tap) : Use → UInt8 → Prop where
  | update (tms tdi : Bool) (hhigh : t.lastTck = true) (hstate : t.state = .updateIr) :
      Brings t (.clock false tms tdi) t.instructionShift
  | enter (tms tdi : Bool) (hlow : t.lastTck = false) (hstate : t.state ≠ .testLogicReset)
      (hnext : t.state.next tms = .testLogicReset) :
      Brings t (.clock true tms tdi) idcodeInstruction
  | reset : Brings t .reset idcodeInstruction

/-- What holds of a port at any time. -/
structure WellFormed (t : Tap) : Prop where
  width : t.dataBits = 1 ∨ t.dataBits = 32
  /-- Each register has some bits within its width, and is low above them. -/
  holds : ∀ path, ∃ bits, t.Holds path bits
  instruction : t.instruction.toNat < 2 ^ instructionBits
  resting : t.state = .testLogicReset → t.instruction = idcodeInstruction

variable {path : ScanPath} {t : Tap} {bits : List Bool}

/-- A register that is low above its width is a number of that many bits. -/
theorem Contents.toNat_lt {w n : Nat} {register : BitVec w} (h : Contents n register.getLsbD bits) :
    register.toNat < 2 ^ n := by
  refine Nat.lt_pow_two_of_testBit _ fun i hi => ?_
  rw [BitVec.testBit_toNat]
  exact h.above i hi

theorem idcodeInstruction_lt : idcodeInstruction.toNat < 2 ^ instructionBits := by decide

/-- What a register holds is told by the registers alone. -/
theorem Holds.of_registers {t' : Tap} (h : t.Holds path bits) (hwidth : t'.dataBits = t.dataBits)
    (hdata : t'.dataShift = t.dataShift) (hinstruction : t'.instructionShift = t.instructionShift) :
    t'.Holds path bits := by
  cases path with
  | data =>
    show Contents t'.dataBits t'.dataShift.toBitVec.getLsbD bits
    rw [hwidth, hdata]
    exact h
  | instruction =>
    show Contents instructionBits t'.instructionShift.toBitVec.getLsbD bits
    rw [hinstruction]
    exact h

/-! ### One use -/

/-- What levels on the inputs do: a rising clock, a falling clock, or nothing. -/
theorem clock_cases (t : Tap) (tck tms tdi : Bool) :
    (t.lastTck = false ∧ tck = true ∧
      t.clock tck tms tdi = { t.rise tms tdi with lastTck := true }) ∨
    (t.lastTck = true ∧ tck = false ∧ t.clock tck tms tdi = { t.fall with lastTck := false }) ∨
    (t.lastTck = tck ∧ t.clock tck tms tdi = t) := by
  obtain ⟨idcode, state, instruction, instructionShift, dataShift, dataBits, tdo, lastTck⟩ := t
  cases lastTck with
  | false =>
    cases tck with
    | false => exact .inr (.inr ⟨rfl, rfl⟩)
    | true => exact .inl ⟨rfl, rfl, rfl⟩
  | true =>
    cases tck with
    | false => exact .inr (.inl ⟨rfl, rfl, rfl⟩)
    | true => exact .inr (.inr ⟨rfl, rfl⟩)

theorem Holds.shift_of_other (h : t.Holds path bits) (hcapture : t.state ≠ path.captureState)
    (hshift : t.state ≠ path.shiftState) (tdi : Bool) : (t.shift tdi).Holds path bits := by
  unfold Tap.shift
  cases path with
  | data =>
    split
    · exact absurd ‹_› hcapture
    · exact absurd ‹_› hshift
    · exact h
    · exact h
    · exact h
  | instruction =>
    split
    · split
      · exact h
      · exact h
    · exact h
    · exact absurd ‹_› hcapture
    · exact absurd ‹_› hshift
    · exact h

/-- A register that is captured or shifted, or neither, holds bits of its width again. -/
theorem Holds.exists_shift (h : t.Holds path bits) (tdi : Bool) :
    ∃ bits', (t.shift tdi).Holds path bits' := by
  by_cases hcapture : t.state = path.captureState
  · exact ⟨_, holds_shift_of_capture hcapture tdi⟩
  · by_cases hshift : t.state = path.shiftState
    · exact ⟨_, h.shift hshift tdi⟩
    · exact ⟨bits, h.shift_of_other hcapture hshift tdi⟩

theorem width_shift (h : t.dataBits = 1 ∨ t.dataBits = 32) (tdi : Bool) :
    (t.shift tdi).dataBits = 1 ∨ (t.shift tdi).dataBits = 32 := by
  unfold Tap.shift
  split
  · split
    · exact .inr rfl
    · exact .inl rfl
  all_goals exact h

theorem instruction_shift (t : Tap) (tdi : Bool) : (t.shift tdi).instruction = t.instruction := by
  unfold Tap.shift
  split
  · split <;> rfl
  all_goals rfl

/-- The instruction that is in force after a rising clock. -/
theorem instruction_rise (t : Tap) (tms tdi : Bool) : (t.rise tms tdi).instruction =
    if t.state.next tms = .testLogicReset then idcodeInstruction else t.instruction := by
  rw [← t.instruction_shift tdi]
  rfl

/-- The instruction that is in force after a falling clock. -/
theorem instruction_fall (t : Tap) : t.fall.instruction =
    if t.state = .updateIr then t.instructionShift else t.instruction := by
  unfold fall
  split <;> simp_all

/-- A falling clock leaves the state and the registers alone. -/
theorem fall_frame (t : Tap) :
    ∃ instruction tdo, t.fall = { t with instruction := instruction, tdo := tdo } := by
  unfold fall
  split
  · exact ⟨t.instruction, _, rfl⟩
  · exact ⟨t.instruction, _, rfl⟩
  · exact ⟨t.instructionShift, false, rfl⟩
  · exact ⟨t.instruction, false, rfl⟩

/-! ### What every use keeps -/

namespace WellFormed

theorem powerUp (idcode : UInt32) : (powerUp idcode).WellFormed where
  width := .inl rfl
  holds := by
    rintro (_ | _)
    · exact ⟨_, contents_zero⟩
    · exact ⟨_, by decide, by decide, rfl, fun i _ => BitVec.getLsbD_zero⟩
  instruction := idcodeInstruction_lt
  resting _ := rfl

theorem rise (h : t.WellFormed) (tms tdi : Bool) : (t.rise tms tdi).WellFormed where
  width := width_shift h.width tdi
  holds path := by
    obtain ⟨bits, hbits⟩ := h.holds path
    obtain ⟨bits', hbits'⟩ := hbits.exists_shift tdi
    exact ⟨bits', hbits'.of_registers rfl rfl rfl⟩
  instruction := by
    rw [instruction_rise]
    split
    · exact idcodeInstruction_lt
    · exact h.instruction
  resting hstate := by
    rw [instruction_rise]
    exact if_pos hstate

theorem fall (h : t.WellFormed) : t.fall.WellFormed where
  width := by
    obtain ⟨_, _, hfall⟩ := t.fall_frame
    rw [hfall]
    exact h.width
  holds path := by
    obtain ⟨bits, hbits⟩ := h.holds path
    obtain ⟨_, _, hfall⟩ := t.fall_frame
    rw [hfall]
    exact ⟨bits, hbits.of_registers rfl rfl rfl⟩
  instruction := by
    obtain ⟨bits, hbits⟩ := h.holds .instruction
    rw [instruction_fall]
    split
    · exact Contents.toNat_lt hbits
    · exact h.instruction
  resting hstate := by
    have hsame : t.state = .testLogicReset := by
      obtain ⟨_, _, hfall⟩ := t.fall_frame
      rwa [hfall] at hstate
    rw [instruction_fall, hsame]
    exact h.resting hsame

theorem lastTck (h : t.WellFormed) (tck : Bool) : ({ t with lastTck := tck } : Tap).WellFormed where
  width := h.width
  holds path := by
    obtain ⟨bits, hbits⟩ := h.holds path
    exact ⟨bits, hbits.of_registers rfl rfl rfl⟩
  instruction := h.instruction
  resting := h.resting

theorem reset (h : t.WellFormed) : t.reset.WellFormed where
  width := h.width
  holds path := by
    obtain ⟨bits, hbits⟩ := h.holds path
    exact ⟨bits, hbits.of_registers rfl rfl rfl⟩
  instruction := idcodeInstruction_lt
  resting _ := rfl

theorem meet (h : t.WellFormed) (use : Use) : (t.meet use).WellFormed := by
  cases use with
  | reset => exact h.reset
  | clock tck tms tdi =>
    rw [Tap.meet]
    obtain ⟨-, -, heq⟩ | ⟨-, -, heq⟩ | ⟨-, heq⟩ := t.clock_cases tck tms tdi
    · rw [heq]
      exact (h.rise tms tdi).lastTck true
    · rw [heq]
      exact h.fall.lastTck false
    · rw [heq]
      exact h

theorem run (h : t.WellFormed) (uses : List Use) : (t.run uses).WellFormed := by
  induction uses using List.reverseRecOn with
  | nil => exact h
  | append_singleton uses use ih =>
    rw [run_concat]
    exact ih.meet use

/-- An instruction that a use does not bring into force is the one that was in force. -/
theorem brings (h : t.WellFormed) {use : Use} (hchange : (t.meet use).instruction ≠ t.instruction) :
    t.Brings use (t.meet use).instruction := by
  cases use with
  | reset => exact .reset
  | clock tck tms tdi =>
    rw [Tap.meet] at hchange ⊢
    obtain ⟨hlow, rfl, heq⟩ | ⟨hhigh, rfl, heq⟩ | ⟨-, heq⟩ := t.clock_cases tck tms tdi
    · rw [heq] at hchange ⊢
      simp only [instruction_rise] at hchange ⊢
      split at hchange
      · rename_i hnext
        rw [if_pos hnext]
        refine .enter tms tdi hlow (fun hstate => hchange ?_) hnext
        exact (h.resting hstate).symm
      · exact absurd rfl hchange
    · rw [heq] at hchange ⊢
      simp only [instruction_fall] at hchange ⊢
      split at hchange
      · rename_i hupdate
        rw [if_pos hupdate]
        exact .update tms tdi hhigh hupdate
      · exact absurd rfl hchange
    · rw [heq] at hchange
      exact absurd rfl hchange

end WellFormed

/-- Whatever has been done to a port since it was powered up, its data register is one bit or 32
bits wide, the registers and the instruction fit in their widths, and in test-logic reset IDCODE is
in force.  Whatever is done to it next, the instruction in force is another one only if the clock
falls in an instruction update, which brings in what the instruction register holds, or if the port
enters test-logic reset or is reset, which brings in IDCODE. -/
theorem registers_wellFormed (idcode : UInt32) (uses : List Use) :
    let t := (powerUp idcode).run uses
    (t.dataBits = 1 ∨ t.dataBits = 32) ∧ t.dataShift.toNat < 2 ^ t.dataBits ∧
      t.instructionShift.toNat < 32 ∧ t.instruction.toNat < 32 ∧
      (t.state = .testLogicReset → t.instruction = idcodeInstruction) ∧
      ∀ use, (t.meet use).instruction ≠ t.instruction →
        t.Brings use (t.meet use).instruction := by
  intro t
  have h : t.WellFormed := (WellFormed.powerUp idcode).run uses
  obtain ⟨_, hdata⟩ := h.holds .data
  obtain ⟨_, hinstruction⟩ := h.holds .instruction
  exact ⟨h.width, Contents.toNat_lt hdata, Contents.toNat_lt hinstruction, h.instruction, h.resting,
    fun _ => h.brings⟩

/-- A port that has been powered up is walked to an instruction update. -/
def walkToUpdate : List Use :=
  [false, true, true, false, false, true, true].flatMap fun tms =>
    [.clock false tms true, .clock true tms true]

/-- The next falling clock brings the instruction 16 into force. -/
theorem registers_wellFormed_update :
    let t := (powerUp 0x149511C3).run walkToUpdate
    t.dataShift.toNat < 2 ^ t.dataBits ∧ (t.meet (.clock false true true)).instruction = 16 ∧
      t.Brings (.clock false true true) 16 := by
  intro t
  obtain ⟨-, hdata, -, -, -, hbrings⟩ := registers_wellFormed 0x149511C3 walkToUpdate
  have hchange : (t.meet (.clock false true true)).instruction = 16 := by decide
  refine ⟨hdata, hchange, ?_⟩
  rw [← hchange]
  exact hbrings _ (by decide)

end Tap

end PinBench.Model
