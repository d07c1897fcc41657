import PinBench.Serial.Transmitter
import PinBench.Word

/-! A frame on its way out.  The places of a frame are numbered from 0: the start bit, the data
bits, and the stop bit in place 9.  `Sending` says which frame a transmitter is in at the time of
its last tick: the frame's place, level and deadline, and what is left in the shift register, follow
from the time since its start edge alone, as long as no two ticks are more than one bit apart. -/

namespace PinBench.Serial

/-- The part of a frame in place `k`. -/
def slot : Nat → Phase
  | 0 => .start
  | k + 1 => if h : k < 8 then .data ⟨k, h⟩ else .stop

/-- Data bit `i` of a byte. -/
def dataBit (byte : UInt8) (i : Fin 8) : Bool := byte.toBitVec.getLsbD i.val

/-- The level of a byte's frame in place `k`. -/
def slotLevel (byte : UInt8) : Nat → Bool
  | 0 => false
  | k + 1 => if h : k < 8 then dataBit byte ⟨k, h⟩ else true

theorem slot_ne_idle (k : Nat) : slot k ≠ .idle := by
  cases k with
  | zero => simp [slot]
  | succ k =>
    simp only [slot]
    split <;> simp

theorem slotLevel_nine (byte : UInt8) : slotLevel byte 9 = true := rfl

/-- What is left in the shift register in place `k`: the first `k` data bits are out. -/
def shiftedOut (byte : UInt8) (k : Nat) : UInt8 := ⟨byte.toBitVec >>> k⟩

theorem shiftedOut_zero (byte : UInt8) : shiftedOut byte 0 = byte :=
  UInt8.toBitVec_inj.mp (BitVec.ushiftRight_zero byte.toBitVec)

theorem shiftedOut_succ (byte : UInt8) (k : Nat) :
    shiftedOut byte k >>> 1 = shiftedOut byte (k + 1) :=
  UInt8.toBitVec_inj.mp (BitVec.shiftRight_add byte.toBitVec k 1).symm

/-- After the last data bit the register is empty, and stays so. -/
theorem shiftedOut_of_le (byte : UInt8) {k : Nat} (hk : 8 ≤ k) : shiftedOut byte k = 0 := by
  refine UInt8.toBitVec_inj.mp (BitVec.eq_of_getLsbD_eq fun i _ => ?_)
  show (byte.toBitVec >>> k).getLsbD i = (0#8).getLsbD i
  rw [BitVec.getLsbD_ushiftRight, BitVec.getLsbD_of_ge _ _ (by omega), BitVec.getLsbD_zero]

/-- The lowest bit of the register is the data bit that comes next. -/
theorem low_shiftedOut (byte : UInt8) (i : Fin 8) :
    (shiftedOut byte i.val &&& 1 != 0) = dataBit byte i := by
  have hlow : (shiftedOut byte i.val &&& 1 != 0) = (byte.toBitVec >>> i.val &&& 1#8 != 0#8) := by
    rw [Bool.eq_iff_iff, bne_iff_ne, bne_iff_ne, ne_eq, ← UInt8.toBitVec_inj]
    rfl
  rw [hlow, Word.and_one_bne_zero (by decide), BitVec.getLsbD_ushiftRight, Nat.add_zero]
  rfl

/-- Place `k` of a frame lasts from `k` bits after its start edge on, for one bit. -/
theorem place_eq {period elapsed k : Nat} (h1 : k * period ≤ elapsed)
    (h2 : elapsed < (k + 1) * period) : elapsed / period = k :=
  Nat.div_eq_of_lt_le h1 h2

theorem place_le {period : Nat} (hp : 0 < period) (elapsed : Nat) :
    elapsed / period * period ≤ elapsed ∧ elapsed < (elapsed / period + 1) * period := by
  refine ⟨Nat.div_mul_le_self _ _, ?_⟩
  rw [Nat.mul_comm]
  exact Nat.lt_mul_div_succ _ hp

/-- An unfinished frame is in one of its ten places. -/
theorem place_lt {period elapsed : Nat} (h : elapsed < frameBits * period) :
    elapsed / period < frameBits :=
  Nat.div_lt_of_lt_mul (by rwa [Nat.mul_comm] at h)

/-- A frame that is over within a bit is in its last place. -/
theorem place_eq_nine {period elapsed now : Nat} (h : elapsed < frameBits * period)
    (hn : frameBits * period ≤ now) (hgap : now ≤ elapsed + period) : elapsed / period = 9 := by
  simp only [frameBits] at h hn
  exact place_eq (by omega) (by omega)

namespace Transmitter

variable {t : Transmitter} {edge last now : Nat} {byte : UInt8} {i : Fin 8}

/-- At its last tick, at time `last`, the transmitter was in the frame of `byte` that started at
time `edge`. -/
structure Sending (t : Transmitter) (edge : Nat) (byte : UInt8) (last : Nat) : Prop where
  begun : edge ≤ last
  unfinished : last - edge < frameBits * t.bitPeriod
  phase : t.phase = slot ((last - edge) / t.bitPeriod)
  level : t.level = slotLevel byte ((last - edge) / t.bitPeriod)
  shift : t.shift = shiftedOut byte ((last - edge) / t.bitPeriod)
  current : t.current = byte
  deadline : edge + ((last - edge) / t.bitPeriod + 1) * t.bitPeriod = t.deadline

/-- The transmitter is between frames, with its line high. -/
structure Resting (t : Transmitter) : Prop where
  phase : t.phase = .idle
  level : t.level = true

theorem resting_idle (baudRate : UInt32) : (idle baudRate).Resting := ⟨rfl, rfl⟩

theorem Resting.enqueue (h : t.Resting) (bytes : List UInt8) : (t.enqueue bytes).Resting :=
  ⟨h.phase, h.level⟩

theorem Sending.enqueue (h : t.Sending edge byte last) (bytes : List UInt8) :
    (t.enqueue bytes).Sending edge byte last :=
  ⟨h.begun, h.unfinished, h.phase, h.level, h.shift, h.current, h.deadline⟩

theorem Sending.phase_ne_idle (h : t.Sending edge byte last) : t.phase ≠ .idle := by
  rw [h.phase]
  exact slot_ne_idle _

theorem Sending.period_pos (h : t.Sending edge byte last) : 0 < t.bitPeriod := by
  have := h.unfinished
  exact Nat.pos_of_mul_pos_left (Nat.lt_of_le_of_lt (Nat.zero_le _) this)

/-! ### One tick -/

theorem follow_wait (h : now < t.deadline) : t.follow now = (t, none) := by
  rw [follow, if_pos (Or.inr h)]

/-- A data bit goes onto the line, and out of the register. -/
theorem driveData_eq (hshift : t.shift = shiftedOut byte i.val) :
    t.driveData i =
      { t.driveBit (slot (i.val + 1)) (slotLevel byte (i.val + 1)) with
        shift := shiftedOut byte (i.val + 1) } := by
  simp only [driveData, hshift, low_shiftedOut, shiftedOut_succ, slot, slotLevel, i.isLt, dite_true]

/-- A place that is over gives way to the next one, with the level that the byte has there. -/
theorem follow_next {k : Nat} (hphase : t.phase = slot k) (hshift : t.shift = shiftedOut byte k)
    (hk : k < 9) (hdue : ¬now < t.deadline) :
    t.follow now =
      ({ t.driveBit (slot (k + 1)) (slotLevel byte (k + 1)) with
         shift := shiftedOut byte (k + 1) }, none) := by
  have hnot : ¬(t.phase = .idle ∨ now < t.deadline) := by
    rw [hphase]
    exact not_or.mpr ⟨slot_ne_idle k, hdue⟩
  rw [follow, if_neg hnot, hphase]
  cases k with
  | zero => exact congrArg (·, none) (driveData_eq (i := firstBit) hshift)
  | succ k =>
    have hk8 : k < 8 := by omega
    have hslot : slot (k + 1) = .data ⟨k, hk8⟩ := by simp [slot, hk8]
    rw [hslot]
    by_cases hlast : k + 1 < 8
    · simp only [nextBit?, hlast, dite_true]
      exact congrArg (·, none) (driveData_eq (i := ⟨k + 1, hlast⟩) hshift)
    · -- The register is empty by now, so that it is what it would be after one more shift.
      have hempty : t.shift = shiftedOut byte (k + 1 + 1) := by
        rw [hshift, shiftedOut_of_le byte (by omega), shiftedOut_of_le byte (by omega)]
      simp only [nextBit?, hlast, dite_false, slot, slotLevel, driveBit, ← hempty]

theorem follow_last (hphase : t.phase = slot 9) (hdue : ¬now < t.deadline) :
    t.follow now = ({ t with phase := .idle, readyAt := some now }, some t.current) := by
  have hstop : t.phase = .stop := hphase
  have hnot : ¬(t.phase = .idle ∨ now < t.deadline) := by
    rw [hstop]
    exact not_or.mpr ⟨by simp, hdue⟩
  rw [follow, if_neg hnot, hstop]

/-- The frame of the byte that waited longest starts once it may. -/
theorem begin_starts {rest : List UInt8} (hp : 0 < t.bitPeriod)
    (hpend : t.pending = byte :: rest) (hready : t.readyAt.getD (now + t.bitPeriod) ≤ now) :
    (t.begin now).Sending now byte now ∧ (t.begin now).pending = rest := by
  refine ⟨?_, by simp [begin, hpend, hready]⟩
  constructor
  · exact Nat.le_refl now
  · have : 0 < frameBits * t.bitPeriod := Nat.mul_pos (by decide) hp
    simpa [begin, hpend, hready] using this
  all_goals simp [begin, hpend, hready, slot, slotLevel, shiftedOut_zero]

/-- Without a byte, or before its time, no frame starts. -/
theorem Resting.begin_rests (h : t.Resting)
    (hwait : t.pending = [] ∨ now < t.readyAt.getD (now + t.bitPeriod)) :
    (t.begin now).Resting ∧ (t.begin now).pending = t.pending ∧
      (t.begin now).readyAt = some (t.readyAt.getD (now + t.bitPeriod)) := by
  have hphase := h.phase
  have hlevel := h.level
  cases hpend : t.pending with
  | nil => exact ⟨⟨by simp [begin, hpend, hphase], by simp [begin, hpend, hlevel]⟩,
      by simp [begin, hpend], by simp [begin, hpend]⟩
  | cons byte rest =>
    have hnot : ¬t.readyAt.getD (now + t.bitPeriod) ≤ now := by
      rcases hwait with hnil | hlt
      · rw [hpend] at hnil
        cases hnil
      · exact Nat.not_le.mpr hlt
    exact ⟨⟨by simp [begin, hpend, hnot, hphase], by simp [begin, hpend, hnot, hlevel]⟩,
      by simp [begin, hpend, hnot], by simp [begin, hpend, hnot]⟩

/-- A resting transmitter that looks for work either starts a frame or keeps resting. -/
theorem Resting.begin_cases (h : t.Resting) (hp : 0 < t.bitPeriod) (now : Nat) :
    (∃ byte rest, t.pending = byte :: rest ∧ (t.begin now).Sending now byte now ∧
        (t.begin now).pending = rest) ∨
      (t.begin now).Resting ∧ (t.begin now).pending = t.pending := by
  by_cases hwait : t.pending = [] ∨ now < t.readyAt.getD (now + t.bitPeriod)
  · obtain ⟨hresting, hpending, -⟩ := h.begin_rests hwait
    exact Or.inr ⟨hresting, hpending⟩
  · obtain ⟨hpend, hready⟩ := not_or.mp hwait
    obtain ⟨byte, rest, hcons⟩ := List.exists_cons_of_ne_nil hpend
    exact Or.inl ⟨byte, rest, hcons, begin_starts hp hcons (Nat.le_of_not_lt hready)⟩

/-- The first tick starts no frame: the line is owed an idle bit. -/
theorem Resting.begin_first (h : t.Resting) (hready : t.readyAt = none) (hp : 0 < t.bitPeriod)
    (now : Nat) :
    (t.begin now).Resting ∧ (t.begin now).pending = t.pending ∧
      (t.begin now).readyAt = some (now + t.bitPeriod) := by
  have hwait : now < t.readyAt.getD (now + t.bitPeriod) := by
    rw [hready]
    exact Nat.lt_add_of_pos_right hp
  obtain ⟨hresting, hpending, hat⟩ := h.begin_rests (Or.inr hwait)
  rw [hready] at hat
  exact ⟨hresting, hpending, hat⟩

theorem begin_bitPeriod (t : Transmitter) (now : Nat) : (t.begin now).bitPeriod = t.bitPeriod := by
  simp only [begin]
  split
  · split <;> rfl
  · rfl

theorem Resting.tick (h : t.Resting) (now : Nat) : t.tick now = (t.begin now, none) := by
  have hf : t.follow now = (t, none) := by rw [follow, if_pos (Or.inl h.phase)]
  simp [Transmitter.tick, hf, h.phase]

/-- In the middle of a frame a tick leads to the place that its time falls into. -/
theorem Sending.tick (h : t.Sending edge byte last) (hle : last ≤ now)
    (hgap : now ≤ last + t.bitPeriod) (hun : now - edge < frameBits * t.bitPeriod) :
    (t.tick now).1.Sending edge byte now ∧ (t.tick now).2 = none ∧
      (t.tick now).1.pending = t.pending ∧ (t.tick now).1.bitPeriod = t.bitPeriod := by
  have hbegun := h.begun
  have hplace := place_le h.period_pos (last - edge)
  rw [Nat.succ_mul] at hplace
  have hdeadline := h.deadline
  rw [Nat.succ_mul] at hdeadline
  by_cases hwait : now < t.deadline
  · have htick : t.tick now = (t, none) := by
      simp [Transmitter.tick, follow_wait hwait, h.phase_ne_idle]
    have hsame : (now - edge) / t.bitPeriod = (last - edge) / t.bitPeriod :=
      place_eq (by omega) (by rw [Nat.succ_mul]; omega)
    rw [htick]
    refine ⟨⟨by omega, hun, ?_, ?_, ?_, h.current, ?_⟩, rfl, rfl, rfl⟩
    · rw [hsame]; exact h.phase
    · rw [hsame]; exact h.level
    · rw [hsame]; exact h.shift
    · rw [hsame]; exact h.deadline
  · have hdue : t.deadline ≤ now := Nat.le_of_not_lt hwait
    have hnext : (now - edge) / t.bitPeriod = (last - edge) / t.bitPeriod + 1 :=
      place_eq (by rw [Nat.succ_mul]; omega) (by rw [Nat.succ_mul, Nat.succ_mul]; omega)
    have hk : (last - edge) / t.bitPeriod < 9 := by
      have := place_lt hun
      rw [hnext] at this
      simp only [frameBits] at this
      omega
    have hfollow := follow_next h.phase h.shift hk hwait
    have htick : t.tick now = ({ t.driveBit (slot ((last - edge) / t.bitPeriod + 1))
        (slotLevel byte ((last - edge) / t.bitPeriod + 1)) with
          shift := shiftedOut byte ((last - edge) / t.bitPeriod + 1) }, none) := by
      simp [Transmitter.tick, hfollow, driveBit, slot_ne_idle]
    rw [htick]
    refine ⟨⟨by omega, hun, ?_, ?_, ?_, h.current, ?_⟩, rfl, rfl, rfl⟩
    · simp only [driveBit, hnext]
    · simp only [driveBit, hnext]
    · simp only [driveBit, hnext]
    · simp only [driveBit, hnext, ← h.deadline, Nat.succ_mul]
      omega

/-- The tick that ends a frame yields its byte, and looks for the next one. -/
theorem Sending.tick_last (h : t.Sending edge byte last) (hgap : now ≤ last + t.bitPeriod)
    (hdone : edge + frameBits * t.bitPeriod ≤ now) :
    t.tick now = (begin { t with phase := .idle, readyAt := some now } now, some byte) := by
  have hbegun := h.begun
  have hover : frameBits * t.bitPeriod ≤ now - edge := by omega
  have hnine : (last - edge) / t.bitPeriod = 9 := place_eq_nine h.unfinished hover (by omega)
  have hphase : t.phase = slot 9 := by rw [h.phase, hnine]
  have hdue : ¬now < t.deadline := by
    rw [← h.deadline, hnine]
    exact Nat.not_lt.mpr hdone
  simp [Transmitter.tick, follow_last hphase hdue, h.current]

/-- At the end of a frame the line is high, so the transmitter rests. -/
theorem Sending.resting_last (h : t.Sending edge byte last) (hgap : now ≤ last + t.bitPeriod)
    (hdone : edge + frameBits * t.bitPeriod ≤ now) :
    t.level = true ∧ Resting { t with phase := .idle, readyAt := some now } := by
  have hbegun := h.begun
  have hover : frameBits * t.bitPeriod ≤ now - edge := by omega
  have hnine : (last - edge) / t.bitPeriod = 9 := place_eq_nine h.unfinished hover (by omega)
  have hlevel : t.level = true := by rw [h.level, hnine, slotLevel_nine]
  exact ⟨hlevel, rfl, hlevel⟩

theorem follow_bitPeriod (t : Transmitter) (now : Time) :
    (t.follow now).1.bitPeriod = t.bitPeriod := by
  unfold follow
  split
  · rfl
  · split
    · rfl
    · rfl
    · split <;> rfl
    · rfl

theorem tick_bitPeriod (t : Transmitter) (now : Nat) :
    (t.tick now).1.bitPeriod = t.bitPeriod := by
  simp only [Transmitter.tick]
  split
  · rw [begin_bitPeriod, follow_bitPeriod]
  · exact t.follow_bitPeriod now

end Transmitter

end PinBench.Serial
