import Mathlib.Data.List.TakeWhile
import PinBench.Json.Fields
import PinBench.Json.Magnitude
import PinBench.Proofs.Json.Scanning

/-! Natural numbers in JSON.  `Json.nat n` is a number by the grammar, it is in the range of
binary64 if it fits in 64 bits, and whoever has room for it reads it back. -/

namespace PinBench.Json

/-- A literal whose characters take the scanner to the end of a number. -/
theorem isNumber_of_foldlM {literal : List Char} {phase : NumberPhase}
    (h : literal.foldlM NumberPhase.next? .sign = some phase) (hcomplete : phase.complete = true) :
    isNumber literal = true := by
  unfold isNumber
  split
  · -- A minus sign goes nowhere from where the digits begin.
    cases h
  · simp only [h, Option.any_some, hcomplete]

/-- The digits of a number that is not zero begin with one that is not. -/
theorem foldlM_toDigits {n : Nat} (h : 0 < n) :
    (Nat.toDigits 10 n).foldlM NumberPhase.next? .sign = some .whole := by
  induction n using Nat.strongRecOn with
  | ind n ih =>
    rcases Nat.lt_or_ge n 10 with hlt | hge
    · have hdigit : ∀ d < 10, 0 < d → NumberPhase.next? .sign (Nat.digitChar d) = some .whole := by
        decide
      rw [Nat.toDigits_of_lt_base hlt, List.foldlM_cons, hdigit n hlt h]
      rfl
    · have hdigit : ∀ d < 10, NumberPhase.next? .whole (Nat.digitChar d) = some .whole := by decide
      rw [Nat.toDigits_of_base_le (by decide) hge, List.foldlM_append, ih (n / 10) (by omega)
        (by omega), Option.bind_eq_bind, Option.bind_some, List.foldlM_cons,
        hdigit (n % 10) (Nat.mod_lt n (by decide))]
      rfl

theorem isNumber_toDigits (n : Nat) : isNumber (Nat.toDigits 10 n) = true := by
  rcases Nat.eq_zero_or_pos n with rfl | hpos
  · rfl
  · exact isNumber_of_foldlM (foldlM_toDigits hpos) rfl

theorem wellFormed_nat (n : Nat) : (nat n).wellFormed isNumber = true := isNumber_toDigits n

theorem all_isDigit_toDigits (n : Nat) : (Nat.toDigits 10 n).all Char.isDigit = true :=
  List.all_eq_true.mpr fun _ hc => Nat.isDigit_of_mem_toDigits (by decide) (by decide) hc

theorem ofDigits_toDigits (n : Nat) : Decimal.ofDigits (Nat.toDigits 10 n) = n := by
  have hdigits : Nat.ofDigitChars 10 (Nat.toDigits 10 n) 0 = n := Nat.ofDigitChars_ten_toDigits
  simp only [Nat.ofDigitChars, Nat.mul_comm 10] at hdigits
  exact hdigits

theorem toNat?_nat {bound n : Nat} (h : n < bound) : (Json.nat n).toNat? bound = some n := by
  simp only [nat, toNat?, all_isDigit_toDigits, if_true, ofDigits_toDigits, if_pos h]

theorem toUInt8?_nat (v : UInt8) : (Json.nat v.toNat).toUInt8? = some v := by
  rw [toUInt8?, toNat?_nat v.toNat_lt, Option.map_some, UInt8.ofNat_toNat]

theorem toUInt16?_nat (v : UInt16) : (Json.nat v.toNat).toUInt16? = some v := by
  rw [toUInt16?, toNat?_nat v.toNat_lt, Option.map_some, UInt16.ofNat_toNat]

theorem toUInt32?_nat (v : UInt32) : (Json.nat v.toNat).toUInt32? = some v := by
  rw [toUInt32?, toNat?_nat v.toNat_lt, Option.map_some, UInt32.ofNat_toNat]

theorem toUInt64?_nat (v : UInt64) : (Json.nat v.toNat).toUInt64? = some v := by
  rw [toUInt64?, toNat?_nat v.toNat_lt, Option.map_some, UInt64.ofNat_toNat]

/-! ### Magnitude -/

/-- Rounding at most doubles a number. -/
theorem roundToBinary64_le (n : Nat) : roundToBinary64 n ≤ 2 * n := by
  unfold roundToBinary64
  simp only [Nat.one_shiftLeft]
  split
  · omega
  · rename_i hdrop
    have hn : n ≠ 0 := by
      rintro rfl
      exact hdrop (by decide)
    have hunit : 2 ^ (n.log2 + 1 - 53) ≤ n :=
      Nat.le_trans (Nat.pow_le_pow_right (by decide) (by omega)) (Nat.log2_self_le hn)
    have hkept := Nat.div_mul_le_self n (2 ^ (n.log2 + 1 - 53))
    split
    · rw [Nat.add_mul, Nat.one_mul]
      omega
    · omega

theorem le_foldl_digits (digits : List Char) (value : Nat) :
    value ≤ digits.foldl (fun n c => n * 10 + (c.toNat - '0'.toNat)) value := by
  induction digits generalizing value with
  | nil => exact Nat.le_refl _
  | cons c digits ih =>
    have hnext : value ≤ value * 10 + (c.toNat - '0'.toNat) := by omega
    exact Nat.le_trans hnext (ih _)

/-- No digit is dropped of a number that is below the bound. -/
theorem leadingDigits_of_lt {bound value : Nat} {digits : List Char}
    (h : digits.foldl (fun n c => n * 10 + (c.toNat - '0'.toNat)) value < bound) :
    leadingDigits bound value digits =
      (digits.foldl (fun n c => n * 10 + (c.toNat - '0'.toNat)) value, 0) := by
  induction digits generalizing value with
  | nil => rfl
  | cons c digits ih =>
    rw [List.foldl_cons] at h
    have hnext := Nat.lt_of_le_of_lt (le_foldl_digits digits _) h
    rw [leadingDigits, if_pos hnext, ih h, List.foldl_cons]

theorem ofLiteral_of_digits {digits : List Char} (h : digits.all Char.isDigit = true) :
    NumberParts.ofLiteral digits = ⟨digits, [], false, []⟩ := by
  have hwhole : digits.takeWhile Char.isDigit = digits :=
    List.takeWhile_eq_self_iff.mpr (List.all_eq_true.mp h)
  have hrest : digits.dropWhile Char.isDigit = [] :=
    List.dropWhile_eq_nil_iff.mpr (List.all_eq_true.mp h)
  unfold NumberParts.ofLiteral
  split
  · cases h
  · simp only [hwhole, hrest]

theorem fitsBinary64_toDigits {n : Nat} (h : n < UInt64.size) :
    fitsBinary64 (Nat.toDigits 10 n) = true := by
  have hvalue : leadingDigits UInt64.size 0 (Nat.toDigits 10 n) = (n, 0) := by
    have hdigits : (Nat.toDigits 10 n).foldl (fun n c => n * 10 + (c.toNat - '0'.toNat)) 0 = n :=
      ofDigits_toDigits n
    rw [leadingDigits_of_lt (by rwa [hdigits]), hdigits]
  have hsmall : fitsBinary64.small n 0 = true := by
    have hone : roundToBinary64 (Nat.pow 10 0) = 1 := by decide
    have hlimit : 2 * UInt64.size ≤ binary64Limit := by decide +kernel
    have hround := roundToBinary64_le n
    rw [fitsBinary64.small, hone, Nat.mul_one, Bool.and_eq_true, decide_eq_true_eq,
      decide_eq_true_eq]
    omega
  unfold fitsBinary64
  simp only [ofLiteral_of_digits (all_isDigit_toDigits n), NumberParts.significand, hvalue,
    leadingDigits]
  split
  · rfl
  · simp [hsmall]

end PinBench.Json
