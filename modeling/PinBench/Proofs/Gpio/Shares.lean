import PinBench.Proofs.Gpio.Validation
import PinBench.Word

/-! The bits of the GPIO input word and their owners.  The two runs of an allocation lie inside the
word and have no bit in common (`inside`, `apart`).  So when one owner replaces its bits of the
word, the other one's bits and the bits of nobody stay as they are (`Shows.observe`,
`Shows.count`). -/

namespace PinBench

/-- Bit `i` of a packed list is level `i` of the list, and low where the list has ended. -/
theorem Word.getLsbD_ofLevels (levels : List Bool) (i : Nat) :
    (ofLevels levels).getLsbD i = (decide (i < 64) && levels.getD i false) := by
  induction levels generalizing i with
  | nil => simp [ofLevels]
  | cons level levels ih =>
    have hcons : ofLevels (level :: levels) = (ofLevels levels <<< 1) ||| ofLevel level := rfl
    rw [hcons, BitVec.getLsbD_or, BitVec.getLsbD_shiftLeft, getLsbD_ofLevel]
    cases i with
    | zero => simp
    | succ i =>
      by_cases hlt : i + 1 < 64
      · have hlt' : i < 64 := by omega
        have hbit := ih i
        rw [decide_eq_true hlt', Bool.true_and] at hbit
        simp only [Nat.add_sub_cancel, hbit]
        simp [hlt]
      · simp [hlt]

namespace Gpio

namespace InputRange

theorem getLsbD_shiftLeft {r : InputRange} {value : Word}
    (hfits : ∀ i, r.width ≤ i → value.getLsbD i = false) {j : Nat} (hj : j < 64) :
    (value <<< r.lsb).getLsbD j = (decide (r.Owns j) && value.getLsbD (j - r.lsb)) := by
  rw [BitVec.getLsbD_shiftLeft, decide_eq_true hj, Bool.true_and]
  by_cases howns : r.Owns j
  · have hlsb : ¬j < r.lsb := Nat.not_lt.mpr howns.1
    simp [howns, hlsb]
  · by_cases hlsb : j < r.lsb
    · simp [howns, hlsb]
    · have hwidth : r.width ≤ j - r.lsb := by
        simp only [Owns] at howns
        omega
      simp [howns, hfits _ hwidth]

theorem getLsbD_setField (r : InputRange) (w value : Word) {j : Nat} (hj : j < 64) :
    (w.setField r.lsb r.width value).getLsbD j =
      if r.Owns j then value.getLsbD (j - r.lsb) else w.getLsbD j := by
  rw [Word.getLsbD_setField]
  exact if_congr (by simp [Owns, hj]) rfl rfl

end InputRange

namespace Allocation

/-- The bits of an owner, which are none if the allocation gives it none. -/
def rangeOf (a : Allocation) (owner : Owner) : InputRange := (a.range? owner).getD ⟨owner, 0, 0⟩

variable {a : Allocation} {mask value value' w : Word} {levels levels' : List Bool}

theorem mem_of_range? {owner : Owner} {r : InputRange} (h : a.range? owner = some r) :
    r ∈ a.ranges ∧ r.owner = owner :=
  ⟨List.mem_of_find?_eq_some h, by simpa using List.find?_some h⟩

theorem inside (a : Allocation) (owner : Owner) : (a.rangeOf owner).Inside := by
  unfold rangeOf
  cases hrange : a.range? owner with
  | none => exact Nat.zero_le _
  | some r => exact a.compatible.inside r (mem_of_range? hrange).1

theorem lsb_lt (a : Allocation) (owner : Owner) : (a.rangeOf owner).lsb < 64 := by
  have hinside := a.inside owner
  simp only [InputRange.Inside, inputWidth] at hinside
  omega

theorem apart (a : Allocation) (j : Nat) :
    ¬((a.rangeOf .stimulus).Owns j ∧ (a.rangeOf .telemetry).Owns j) := by
  have hnone (owner : Owner) : ¬(⟨owner, 0, 0⟩ : InputRange).Owns j := fun h =>
    Nat.not_lt_zero j h.2
  unfold rangeOf
  cases hstimulus : a.range? .stimulus with
  | none => exact fun h => hnone _ h.1
  | some r =>
    cases htelemetry : a.range? .telemetry with
    | none => exact fun h => hnone _ h.2
    | some s =>
      obtain ⟨hr, hrowner⟩ := mem_of_range? hstimulus
      obtain ⟨hs, hsowner⟩ := mem_of_range? htelemetry
      have hne : r ≠ s := by
        rintro rfl
        rw [hrowner] at hsowner
        cases hsowner
      have hsymm : Std.Symm fun r s : InputRange => ¬r.Meets s :=
        ⟨fun _ _ h hmeets => h hmeets.symm⟩
      exact fun h => a.compatible.apart.forall hr hs hne ⟨j, h⟩

/-- The word `w` of the inputs, of which the model has the bits in `mask`, shows the value of the
counter and the levels of the observer, each in its own bits, and is low everywhere else. -/
def Shows (a : Allocation) (mask value : Word) (levels : List Bool) (w : Word) : Prop :=
  ∃ field : Word,
    (∀ i, field.getLsbD i =
      (decide (i < (a.rangeOf .telemetry).width) && levels.getD i false)) ∧
    w = ((value <<< (a.rangeOf .stimulus).lsb) ||| (field <<< (a.rangeOf .telemetry).lsb)) &&& mask

/-- The value of the counter fits into its bits. -/
def Fits (a : Allocation) (value : Word) : Prop :=
  ∀ i, (a.rangeOf .stimulus).width ≤ i → value.getLsbD i = false

/-- Bit `j` of the word that an allocation makes of a value and some levels. -/
def bitAt (a : Allocation) (value : Word) (levels : List Bool) (j : Nat) : Bool :=
  (decide ((a.rangeOf .stimulus).Owns j) && value.getLsbD (j - (a.rangeOf .stimulus).lsb)) ||
    (decide ((a.rangeOf .telemetry).Owns j) &&
      levels.getD (j - (a.rangeOf .telemetry).lsb) false)

theorem bitAt_of_stimulus {j : Nat} (h : (a.rangeOf .stimulus).Owns j) :
    a.bitAt value levels j = value.getLsbD (j - (a.rangeOf .stimulus).lsb) := by
  have hother : ¬(a.rangeOf .telemetry).Owns j := fun hother => a.apart j ⟨h, hother⟩
  simp [bitAt, h, hother]

theorem bitAt_of_telemetry {j : Nat} (h : (a.rangeOf .telemetry).Owns j) :
    a.bitAt value levels j = levels.getD (j - (a.rangeOf .telemetry).lsb) false := by
  have hother : ¬(a.rangeOf .stimulus).Owns j := fun hother => a.apart j ⟨hother, h⟩
  simp [bitAt, h, hother]

theorem bitAt_of_not_stimulus (value' : Word) {j : Nat} (h : ¬(a.rangeOf .stimulus).Owns j) :
    a.bitAt value levels j = a.bitAt value' levels j := by
  simp [bitAt, h]

theorem bitAt_of_not_telemetry (levels' : List Bool) {j : Nat}
    (h : ¬(a.rangeOf .telemetry).Owns j) : a.bitAt value levels j = a.bitAt value levels' j := by
  simp [bitAt, h]

theorem getLsbD_ofLevels_take (a : Allocation) (levels : List Bool) (i : Nat) :
    (Word.ofLevels (levels.take (a.rangeOf .telemetry).width)).getLsbD i =
      (decide (i < (a.rangeOf .telemetry).width) && levels.getD i false) := by
  have hwide : (a.rangeOf .telemetry).width ≤ 32 :=
    Nat.le_trans (Nat.le_add_left _ _) (a.inside .telemetry)
  rw [Word.getLsbD_ofLevels, List.getD_eq_getElem?_getD, List.getD_eq_getElem?_getD,
    List.getElem?_take]
  by_cases hlt : i < (a.rangeOf .telemetry).width
  · have hword : i < 64 := by omega
    simp [hlt, hword]
  · simp [hlt]

theorem shows_iff (hfits : a.Fits value) :
    a.Shows mask value levels w ↔
      ∀ j < 64, w.getLsbD j = (a.bitAt value levels j && mask.getLsbD j) := by
  have hbit (field : Word)
      (hfield : ∀ i, field.getLsbD i =
        (decide (i < (a.rangeOf .telemetry).width) && levels.getD i false)) (j : Nat) (hj : j < 64) :
      ((value <<< (a.rangeOf .stimulus).lsb ||| field <<< (a.rangeOf .telemetry).lsb) &&&
        mask).getLsbD j = (a.bitAt value levels j && mask.getLsbD j) := by
    have hnarrow (i : Nat) (hi : (a.rangeOf .telemetry).width ≤ i) : field.getLsbD i = false := by
      rw [hfield, decide_eq_false (Nat.not_lt.mpr hi), Bool.false_and]
    rw [BitVec.getLsbD_and, BitVec.getLsbD_or, InputRange.getLsbD_shiftLeft hfits hj,
      InputRange.getLsbD_shiftLeft hnarrow hj, bitAt]
    by_cases howns : (a.rangeOf .telemetry).Owns j
    · have hlt : j - (a.rangeOf .telemetry).lsb < (a.rangeOf .telemetry).width := by
        simp only [InputRange.Owns] at howns
        omega
      rw [hfield, decide_eq_true hlt, Bool.true_and]
    · simp [howns]
  constructor
  · rintro ⟨field, hfield, rfl⟩ j hj
    exact hbit field hfield j hj
  · intro h
    refine ⟨_, a.getLsbD_ofLevels_take levels, BitVec.eq_of_getLsbD_eq fun j hj => ?_⟩
    rw [h j hj, hbit _ (a.getLsbD_ofLevels_take levels) j hj]

theorem shows_zero (a : Allocation) (mask : Word) : a.Shows mask 0 [] 0 := by
  refine ⟨0, fun i => ?_, ?_⟩
  · simp
  · simp

theorem Shows.observe (h : a.Shows mask value levels w) (hfits : a.Fits value)
    (levels' : List Bool) :
    a.Shows mask value levels' ((w &&& mask).setField (a.rangeOf .telemetry).lsb
      (a.rangeOf .telemetry).width (Word.ofLevels (levels'.take (a.rangeOf .telemetry).width)) &&&
        mask) := by
  rw [shows_iff hfits] at h ⊢
  intro j hj
  rw [BitVec.getLsbD_and, InputRange.getLsbD_setField _ _ _ hj]
  split
  · rename_i howns
    have hlt : j - (a.rangeOf .telemetry).lsb < (a.rangeOf .telemetry).width := by
      simp only [InputRange.Owns] at howns
      omega
    rw [bitAt_of_telemetry howns, getLsbD_ofLevels_take, decide_eq_true hlt, Bool.true_and]
  · rename_i howns
    rw [BitVec.getLsbD_and, h j hj, bitAt_of_not_telemetry levels' howns, Bool.and_assoc,
      Bool.and_assoc, Bool.and_self, Bool.and_self]

theorem Shows.count (h : a.Shows mask value levels w) (hfits : a.Fits value)
    (hfits' : a.Fits value') :
    a.Shows mask value' levels ((w &&& mask).setField (a.rangeOf .stimulus).lsb
      (a.rangeOf .stimulus).width value' &&& mask) := by
  rw [shows_iff hfits] at h
  rw [shows_iff hfits']
  intro j hj
  rw [BitVec.getLsbD_and, InputRange.getLsbD_setField _ _ _ hj]
  split
  · rename_i howns
    rw [bitAt_of_stimulus howns]
  · rename_i howns
    rw [BitVec.getLsbD_and, h j hj, bitAt_of_not_stimulus value' howns, Bool.and_assoc,
      Bool.and_assoc, Bool.and_self, Bool.and_self]

/-- Two words that differ in the observer's levels alone agree outside the observer's bits. -/
theorem Shows.agree_of_levels {w' : Word} (h : a.Shows mask value levels w)
    (h' : a.Shows mask value levels' w') (hfits : a.Fits value) {j : Nat}
    (hj : ¬(a.rangeOf .telemetry).Owns j) : w'.getLsbD j = w.getLsbD j := by
  by_cases hword : j < 64
  · rw [(shows_iff hfits).mp h j hword, (shows_iff hfits).mp h' j hword,
      bitAt_of_not_telemetry levels hj]
  · rw [BitVec.getLsbD_of_ge _ _ (Nat.le_of_not_lt hword),
      BitVec.getLsbD_of_ge _ _ (Nat.le_of_not_lt hword)]

/-- Two words that differ in the counter's value alone agree outside the counter's bits. -/
theorem Shows.agree_of_value {w' : Word} (h : a.Shows mask value levels w)
    (h' : a.Shows mask value' levels w') (hfits : a.Fits value) (hfits' : a.Fits value') {j : Nat}
    (hj : ¬(a.rangeOf .stimulus).Owns j) : w'.getLsbD j = w.getLsbD j := by
  by_cases hword : j < 64
  · rw [(shows_iff hfits).mp h j hword, (shows_iff hfits').mp h' j hword,
      bitAt_of_not_stimulus value hj]
  · rw [BitVec.getLsbD_of_ge _ _ (Nat.le_of_not_lt hword),
      BitVec.getLsbD_of_ge _ _ (Nat.le_of_not_lt hword)]

end Allocation

end Gpio

end PinBench
