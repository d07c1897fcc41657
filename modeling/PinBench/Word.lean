/-! Pin words.  The value of a signal is a word of 64 bits, of which a signal of width `w` uses the
low `w`.  `lowMask` covers those bits, `setField` replaces a run of bits and keeps the others, and
`ofLevels` packs a list of levels, least significant first. -/

namespace PinBench

/-- The value of a signal. -/
abbrev Word := BitVec 64

namespace Word

/-- One for a high level and zero for a low one. -/
def ofLevel (level : Bool) : Word := if level then 1 else 0

/-- A pin is high when any bit of its word is set. -/
def isHigh (w : Word) : Bool := w != 0

/-- The mask of the low `width` bits.  From 64 on it covers the whole word. -/
def lowMask (width : Nat) : Word := BitVec.allOnes 64 >>> (64 - width)

/-- `w` with the `width` bits from `lsb` on replaced by the low bits of `value`.  Bits past the end
of the word are lost. -/
def setField (w : Word) (lsb width : Nat) (value : Word) : Word :=
  let mask := lowMask width <<< lsb
  (w &&& ~~~mask) ||| ((value <<< lsb) &&& mask)

/-- The word whose bit `i` is `levels[i]`, and low where the list has ended. -/
def ofLevels (levels : List Bool) : Word :=
  levels.foldr (fun level w => (w <<< 1) ||| ofLevel level) 0

/-- A word with all but its lowest bit masked is not zero if that bit is set. -/
theorem and_one_bne_zero {w : Nat} (hw : 0 < w) (b : BitVec w) :
    (b &&& 1#w != 0#w) = b.getLsbD 0 := by
  rw [BitVec.and_one_eq_setWidth_ofBool_getLsbD]
  cases b.getLsbD 0 with
  | false => simp
  | true =>
    rw [bne_iff_ne]
    intro h
    have hbit := congrArg (BitVec.getLsbD · 0) h
    simp [hw] at hbit

theorem getLsbD_ofLevel (level : Bool) (i : Nat) :
    (ofLevel level).getLsbD i = (decide (i = 0) && level) := by
  cases level <;> simp [ofLevel, BitVec.getLsbD_one]

theorem getLsbD_lowMask (width i : Nat) :
    (lowMask width).getLsbD i = (decide (i < 64) && decide (i < width)) := by
  rw [lowMask, BitVec.getLsbD_ushiftRight, BitVec.getLsbD_allOnes, ← Bool.decide_and,
    decide_eq_decide]
  omega

/-- Bit `j` of a word after a field was replaced: inside the field it is the value's bit, outside
it is the bit that stood there. -/
theorem getLsbD_setField (w value : Word) (lsb width j : Nat) :
    (w.setField lsb width value).getLsbD j =
      if lsb ≤ j ∧ j < lsb + width ∧ j < 64 then value.getLsbD (j - lsb) else w.getLsbD j := by
  simp only [setField, BitVec.getLsbD_or, BitVec.getLsbD_and, BitVec.getLsbD_not,
    BitVec.getLsbD_shiftLeft, getLsbD_lowMask]
  by_cases h64 : j < 64
  · by_cases hl : lsb ≤ j
    · by_cases hw : j < lsb + width
      · have h1 : j - lsb < width := by omega
        have h2 : j - lsb < 64 := by omega
        simp [h64, hl, hw, h1, h2, Nat.not_lt.mpr hl]
      · have h1 : ¬ j - lsb < width := by omega
        simp [h64, hw, h1]
    · simp [h64, hl, Nat.lt_of_not_le hl]
  · simp [h64, BitVec.getLsbD_of_ge w j (Nat.le_of_not_lt h64)]

end Word

end PinBench
