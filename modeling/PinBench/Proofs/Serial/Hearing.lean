import PinBench.Serial.Receiver
import PinBench.Proofs.Serial.Sending

/-! A frame on its way in.  A receiver takes nine samples of a frame: one of the start bit, half a
bit after the start edge, and one of each data bit, a bit after the one before.  `Hearing` says that
a receiver has taken the samples due so far and found in them the bits of one byte.  It goes on so
with each tick whose line shows that byte, and the tick that ends the frame yields the byte. -/

namespace PinBench.Serial

/-- How long after the start edge sample `m` is due, or the frame's end after the last sample. -/
def sampleDue (period m : Nat) : Nat :=
  if m < 9 then period / 2 + m * period else frameBits * period

theorem sampleDue_of_lt {period m : Nat} (h : m < 9) :
    sampleDue period m = period / 2 + m * period := if_pos h

theorem sampleDue_nine (period : Nat) : sampleDue period 9 = frameBits * period := rfl

theorem sampleDue_succ {period m : Nat} (h : m < 9) :
    sampleDue period m + period ≤ sampleDue period (m + 1) := by
  rw [sampleDue_of_lt h]
  by_cases hm : m + 1 < 9
  · rw [sampleDue_of_lt hm, Nat.succ_mul]
    omega
  · have : m = 8 := by omega
    subst this
    rw [sampleDue_nine]
    simp only [frameBits]
    omega

/-! ### Bits of a byte -/

theorem dataBit_raiseBit (byte : UInt8) (i j : Fin 8) (level : Bool) :
    dataBit (raiseBit byte i level) j = (dataBit byte j || (level && decide (j = i))) := by
  cases level with
  | false => simp [raiseBit]
  | true =>
    simp only [raiseBit, dataBit, if_true, BitVec.getLsbD_or, BitVec.getLsbD_shiftLeft,
      BitVec.getLsbD_one, Bool.true_and]
    congr 1
    have hj := j.isLt
    by_cases h : j = i
    · subst h
      simp
    · have hne : j.val ≠ i.val := fun e => h (Fin.ext e)
      by_cases hlt : j.val < i.val
      · simp [hlt, h]
      · have : j.val - i.val ≠ 0 := by omega
        simp [this, h]

theorem byte_eq_of_dataBit {a b : UInt8} (h : ∀ i, dataBit a i = dataBit b i) : a = b := by
  apply UInt8.toBitVec_inj.mp
  apply BitVec.eq_of_getLsbD_eq
  intro i hi
  exact h ⟨i, hi⟩

theorem dataBit_zero (i : Fin 8) : dataBit 0 i = false := by
  revert i
  decide

namespace Receiver

variable {r : Receiver} {edge last now : Nat} {byte : UInt8} {line : Bool}

/-- The receiver is in the frame that started at time `edge`, has taken `m` samples of it, and the
data bits among them are those of `byte`. -/
structure Sampled (r : Receiver) (edge : Nat) (byte : UInt8) (m : Nat) : Prop where
  le : m ≤ 9
  phase : r.phase = slot m
  shift : ∀ i : Fin 8, dataBit r.shift i = (decide (i.val + 1 < m) && dataBit byte i)
  deadline : edge + sampleDue r.bitPeriod m = r.deadline

/-- At its last tick, at time `last`, the receiver was in a frame that started at time `edge`, and
what it had sampled of it was `byte`. -/
structure Hearing (r : Receiver) (edge : Nat) (byte : UInt8) (last : Nat) : Prop where
  begun : edge ≤ last
  unfinished : last - edge < frameBits * r.bitPeriod
  sampled : ∃ m, r.Sampled edge byte m ∧ last < edge + sampleDue r.bitPeriod m

theorem Hearing.phase_ne_idle (h : r.Hearing edge byte last) : r.phase ≠ .idle := by
  obtain ⟨m, hm, -⟩ := h.sampled
  rw [hm.phase]
  exact slot_ne_idle m

/-! ### One tick -/

theorem begin_of_phase (h : r.phase ≠ .idle) : r.begin now line = r := by
  rw [begin, if_neg (fun hc => h hc.1)]

theorem follow_wait (h : now < r.deadline) : r.follow now line = (r, none) := by
  rw [follow, if_pos (Or.inr h)]

theorem follow_idle (h : r.phase = .idle) : r.follow now line = (r, none) := by
  rw [follow, if_pos (Or.inl h)]

theorem not_waiting {m : Nat} (h : r.Sampled edge byte m) (hdue : ¬now < r.deadline) :
    ¬(r.phase = .idle ∨ now < r.deadline) := by
  rw [h.phase]
  exact not_or.mpr ⟨slot_ne_idle m, hdue⟩

/-- A sample that is due and shows the bit of `byte` in its place. -/
theorem Sampled.follow_next {m : Nat} (h : r.Sampled edge byte m) (hm : m < 9)
    (hdue : ¬now < r.deadline) (hline : line = slotLevel byte m) :
    (r.follow now line).1.Sampled edge byte (m + 1) ∧ (r.follow now line).2 = none ∧
      (r.follow now line).1.bitPeriod = r.bitPeriod := by
  have hshift := h.shift
  have hdeadline := h.deadline
  rw [sampleDue_of_lt hm] at hdeadline
  rw [follow, if_neg (not_waiting h hdue), h.phase]
  subst hline
  cases m with
  | zero =>
    refine ⟨⟨by omega, rfl, ?_, ?_⟩, rfl, rfl⟩
    · intro i
      simpa [slot, slotLevel] using hshift i
    · simp only [slot, slotLevel, Bool.false_eq_true, if_false, ← hdeadline]
      rw [sampleDue_of_lt (by omega)]
      omega
  | succ k =>
    have hk : k < 8 := by omega
    have hraised : ∀ i : Fin 8, dataBit (raiseBit r.shift ⟨k, hk⟩ (dataBit byte ⟨k, hk⟩)) i =
        (decide (i.val + 1 < k + 1 + 1) && dataBit byte i) := by
      intro i
      rw [dataBit_raiseBit, hshift]
      by_cases hi : i = ⟨k, hk⟩
      · subst hi
        simp
      · have hne : i.val ≠ k := fun e => hi (Fin.ext e)
        have : (i.val + 1 < k + 1 + 1) ↔ (i.val + 1 < k + 1) := by omega
        simp [hi, this]
    simp only [slot, slotLevel, dif_pos hk, nextBit?]
    by_cases hlast : k + 1 < 8
    · simp only [dif_pos hlast]
      refine ⟨⟨by omega, by simp [slot, hlast], hraised, ?_⟩, trivial, trivial⟩
      simp only [← hdeadline]
      rw [sampleDue_of_lt (by omega), Nat.succ_mul (k + 1)]
      omega
    · simp only [dif_neg hlast]
      have hk7 : k = 7 := by omega
      subst hk7
      refine ⟨⟨by omega, rfl, hraised, ?_⟩, trivial, trivial⟩
      show edge + sampleDue r.bitPeriod 9 = _
      simp only [← hdeadline, sampleDue_nine, frameBits]
      omega

/-- A frame that is over yields the byte whose bits it showed. -/
theorem Sampled.follow_last (h : r.Sampled edge byte 9) (hdue : ¬now < r.deadline) :
    r.follow now line = ({ r with phase := .idle }, some byte) := by
  have hstop : r.phase = .stop := h.phase
  have hbyte : r.shift = byte := by
    apply byte_eq_of_dataBit
    intro i
    have hi : i.val + 1 < 9 := by omega
    simpa [hi] using h.shift i
  rw [follow, if_neg (not_waiting h hdue), hstop, hbyte]

/-- The level of the line is kept until the next tick, and plays no part before it. -/
theorem Hearing.keep {level : Option Bool} (h : r.Hearing edge byte last) :
    Hearing { r with previous := level } edge byte last := by
  obtain ⟨m, hm, hwait⟩ := h.sampled
  exact ⟨h.begun, h.unfinished, m, ⟨hm.le, hm.phase, hm.shift, hm.deadline⟩, hwait⟩

/-- In the middle of a frame a tick takes the sample that is due, if one is.  The line has to show
the byte when it is sampled. -/
theorem Hearing.tick_sample (h : r.Hearing edge byte last) (hle : last ≤ now)
    (hgap : now ≤ last + r.bitPeriod) (hun : now - edge < frameBits * r.bitPeriod)
    (hline : ∀ m < 9, last < edge + sampleDue r.bitPeriod m → edge + sampleDue r.bitPeriod m ≤ now →
      line = slotLevel byte m) :
    (r.tick now line).1.Hearing edge byte now ∧ (r.tick now line).2 = none := by
  obtain ⟨m, hm, hwait⟩ := h.sampled
  have hbegun := h.begun
  by_cases hdue : now < r.deadline
  · have htick : r.tick now line = ({ r with previous := some line }, none) := by
      simp only [Receiver.tick, follow_wait hdue, begin_of_phase h.phase_ne_idle]
    have hwait' : now < edge + sampleDue r.bitPeriod m := by rw [hm.deadline]; exact hdue
    rw [htick]
    refine ⟨Hearing.keep ⟨by omega, hun, m, hm, hwait'⟩, rfl⟩
  · have hreached : edge + sampleDue r.bitPeriod m ≤ now := by
      rw [hm.deadline]; exact Nat.le_of_not_lt hdue
    have hm9 : m < 9 := by
      rcases Nat.lt_or_eq_of_le hm.le with hlt | rfl
      · exact hlt
      · rw [sampleDue_nine] at hreached
        omega
    obtain ⟨hnext, hnone, hperiod⟩ := hm.follow_next hm9 hdue (hline m hm9 hwait hreached)
    have hphase : (r.follow now line).1.phase ≠ .idle := by
      rw [hnext.phase]
      exact slot_ne_idle _
    have hlater : now < edge + sampleDue r.bitPeriod (m + 1) := by
      have hnext : sampleDue r.bitPeriod m + r.bitPeriod ≤ sampleDue r.bitPeriod (m + 1) :=
        sampleDue_succ hm9
      omega
    have hhearing : (r.follow now line).1.Hearing edge byte now :=
      ⟨by omega, by rw [hperiod]; exact hun, m + 1, hnext, by rw [hperiod]; exact hlater⟩
    simp only [Receiver.tick, begin_of_phase hphase]
    exact ⟨hhearing.keep, hnone⟩

/-- A tick whose line shows the byte as it is `shown` after the start edge.  That may be up to half
a bit behind this tick, and up to half a bit ahead of the last one. -/
theorem Hearing.tick {shown : Nat} (h : r.Hearing edge byte last) (hle : last ≤ now)
    (hun : now - edge < frameBits * r.bitPeriod)
    (hbehind : now ≤ edge + shown + r.bitPeriod / 2)
    (hahead : edge + shown + r.bitPeriod / 2 ≤ last + r.bitPeriod)
    (hline : line = slotLevel byte (shown / r.bitPeriod)) :
    (r.tick now line).1.Hearing edge byte now ∧ (r.tick now line).2 = none := by
  refine h.tick_sample hle (by omega) hun (fun m hm hbefore hdue => ?_)
  rw [sampleDue_of_lt hm] at hbefore hdue
  have hplace : shown / r.bitPeriod = m := place_eq (by omega) (by rw [Nat.succ_mul]; omega)
  rw [hline, hplace]

/-- Once the last sample is taken the line does not matter until the frame is over. -/
theorem Hearing.tick_stop (h : r.Hearing edge byte last) (hle : last ≤ now)
    (hgap : now ≤ last + r.bitPeriod) (hun : now - edge < frameBits * r.bitPeriod)
    (htaken : edge + sampleDue r.bitPeriod 8 ≤ last) (line : Bool) :
    (r.tick now line).1.Hearing edge byte now ∧ (r.tick now line).2 = none := by
  refine h.tick_sample hle hgap hun (fun m hm hbefore _ => ?_)
  have hmul : m * r.bitPeriod ≤ 8 * r.bitPeriod := Nat.mul_le_mul_right _ (by omega)
  rw [sampleDue_of_lt (by decide)] at htaken
  rw [sampleDue_of_lt hm] at hbefore
  omega

/-- The tick that ends a frame yields its byte, and looks for the next start edge. -/
theorem Hearing.tick_last (h : r.Hearing edge byte last) (hgap : now ≤ last + r.bitPeriod)
    (hdone : edge + frameBits * r.bitPeriod ≤ now) :
    r.tick now line = ({ begin { r with phase := .idle } now line with previous := some line },
      some byte) := by
  obtain ⟨m, hm, hwait⟩ := h.sampled
  have hm9 : m = 9 := by
    rcases Nat.lt_or_eq_of_le hm.le with hlt | h9
    · have hmul : m * r.bitPeriod ≤ 8 * r.bitPeriod := Nat.mul_le_mul_right _ (by omega)
      rw [sampleDue_of_lt hlt] at hwait
      simp only [frameBits] at hdone
      omega
    · exact h9
  subst hm9
  have hdue : ¬now < r.deadline := by
    rw [← hm.deadline, sampleDue_nine]
    exact Nat.not_lt.mpr hdone
  simp only [Receiver.tick, hm.follow_last hdue]

/-- A falling line starts a frame, whatever byte the frame will turn out to hold. -/
theorem hearing_begin (hphase : r.phase = .idle) (hprev : r.previous = some true)
    (hp : 2 ≤ r.bitPeriod) (byte : UInt8) (now : Nat) :
    (r.begin now false).Hearing now byte now := by
  have hhalf : 1 ≤ r.bitPeriod / 2 := by omega
  have hbegin : r.begin now false =
      { r with phase := .start, deadline := now + r.bitPeriod / 2, shift := 0 } := by
    simp [begin, hphase, hprev]
  rw [hbegin]
  refine ⟨Nat.le_refl now, ?_, 0, ⟨by omega, rfl, ?_, ?_⟩, ?_⟩
  · simp only [Nat.sub_self, frameBits]
    omega
  · intro i
    simp [dataBit_zero]
  · simp [sampleDue]
  · show now < now + sampleDue r.bitPeriod 0
    rw [sampleDue_of_lt (by decide)]
    omega

theorem begin_of_high (r : Receiver) (now : Nat) : r.begin now true = r := by
  simp [begin]

theorem begin_of_previous (h : r.previous ≠ some true) : r.begin now line = r := by
  rw [begin, if_neg (fun hc => h hc.2.1)]

theorem tick_idle (h : r.phase = .idle) (now : Nat) (line : Bool) :
    r.tick now line = ({ r.begin now line with previous := some line }, none) := by
  simp only [Receiver.tick, follow_idle h]

theorem tick_previous (r : Receiver) (now : Nat) (line : Bool) :
    (r.tick now line).1.previous = some line := rfl

theorem begin_bitPeriod (r : Receiver) (now : Nat) (line : Bool) :
    (r.begin now line).bitPeriod = r.bitPeriod := by
  simp only [begin]
  split <;> rfl

theorem follow_bitPeriod (r : Receiver) (now : Time) (line : Bool) :
    (r.follow now line).1.bitPeriod = r.bitPeriod := by
  unfold follow
  split
  · rfl
  · split
    · rfl
    · split <;> rfl
    · simp only
      split <;> rfl
    · rfl

theorem tick_bitPeriod (r : Receiver) (now : Nat) (line : Bool) :
    (r.tick now line).1.bitPeriod = r.bitPeriod := by
  simp only [Receiver.tick, begin_bitPeriod, follow_bitPeriod]

end Receiver

end PinBench.Serial
