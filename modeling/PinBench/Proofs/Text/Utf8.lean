import PinBench.Text.Utf8

/-! UTF-8 undone.  The decoder takes the bytes of a character one by one and has the character with
the last of them, so `decode_encode` reads every text back from its bytes.  A line feed is among the
bytes only where it is in the text. -/

namespace PinBench.Utf8

variable {acc : List Char} {b : UInt8} {owed low high value : Nat}

/-- The least second byte of a sequence that starts with `n`, so that no shorter one would do. -/
def secondLow (n : Nat) : Nat := if n = 0xE0 then 0xA0 else if n = 0xF0 then 0x90 else 0x80

/-- The greatest second byte of a sequence that starts with `n`: no surrogates and nothing past the
last character. -/
def secondHigh (n : Nat) : Nat := if n = 0xED then 0x9F else if n = 0xF4 then 0x8F else 0xBF

/-! ### One byte -/

theorem push_one (h : b.toNat < 0x80) :
    push (.start, acc) b = (.start, Char.ofNat b.toNat :: acc) := by
  simp only [push, step, first, if_pos h]
  rfl

theorem push_two (h : 0xC2 ≤ b.toNat ∧ b.toNat < 0xE0) :
    push (.start, acc) b = (.inside 0 0x80 0xBF (b.toNat - 0xC0), acc) := by
  have hone : ¬b.toNat < 0x80 := by omega
  have hlow : ¬b.toNat < 0xC2 := by omega
  simp only [push, step, first, if_neg hone, if_neg hlow, if_pos h.2]
  rfl

theorem push_three (h : 0xE0 ≤ b.toNat ∧ b.toNat < 0xF0) :
    push (.start, acc) b =
      (.inside 1 (secondLow b.toNat) (secondHigh b.toNat) (b.toNat - 0xE0), acc) := by
  have hone : ¬b.toNat < 0x80 := by omega
  have hlow : ¬b.toNat < 0xC2 := by omega
  have htwo : ¬b.toNat < 0xE0 := by omega
  simp only [push, step, first, if_neg hone, if_neg hlow, if_neg htwo]
  by_cases hfirst : b.toNat = 0xE0
  · rw [hfirst]
    rfl
  · by_cases hsurrogates : b.toNat = 0xED
    · rw [hsurrogates]
      rfl
    · have hthree : ¬b.toNat = 0xF0 := by omega
      have hfour : ¬b.toNat = 0xF4 := by omega
      simp only [if_neg hfirst, if_neg hsurrogates, if_pos h.2, secondLow, secondHigh,
        if_neg hthree, if_neg hfour]
      rfl

theorem push_four (h : 0xF0 ≤ b.toNat ∧ b.toNat ≤ 0xF4) :
    push (.start, acc) b =
      (.inside 2 (secondLow b.toNat) (secondHigh b.toNat) (b.toNat - 0xF0), acc) := by
  have hcases : b.toNat = 0xF0 ∨ b.toNat = 0xF1 ∨ b.toNat = 0xF2 ∨ b.toNat = 0xF3 ∨
      b.toNat = 0xF4 := by omega
  simp only [push, step, first]
  rcases hcases with h | h | h | h | h <;> rw [h] <;> rfl

theorem push_more (h : low ≤ b.toNat ∧ b.toNat ≤ high) :
    push (.inside (owed + 1) low high value, acc) b =
      (.inside owed 0x80 0xBF (value * 64 + b.toNat % 64), acc) := by
  simp only [push, step, if_pos h]
  rfl

theorem push_last (h : low ≤ b.toNat ∧ b.toNat ≤ high) :
    push (.inside 0 low high value, acc) b =
      (.start, Char.ofNat (value * 64 + b.toNat % 64) :: acc) := by
  simp only [push, step, if_pos h]
  rfl

/-! ### One character -/

theorem toNat_ofNat {n : Nat} (h : n < 256) : (UInt8.ofNat n).toNat = n := by
  rw [UInt8.toNat_ofNat']
  exact Nat.mod_eq_of_lt h

theorem push_char (c : Char) (acc : List Char) :
    (String.utf8EncodeChar c).foldl push (.start, acc) = (.start, c :: acc) := by
  have hvalid : c.toNat < 0xD800 ∨ 0xDFFF < c.toNat ∧ c.toNat < 0x110000 := c.valid
  have hchar : Char.ofNat c.toNat = c := Char.ofNat_toNat c
  have hval : c.val.toNat = c.toNat := rfl
  rw [String.utf8EncodeChar, hval]
  generalize c.toNat = n at *
  -- One case for each length of a sequence; its bytes make up the number again.
  split
  · have h1 := toNat_ofNat (n := n) (by omega)
    rw [List.foldl_cons, push_one (by omega), h1, hchar, List.foldl_nil]
  · split
    · have h1 := toNat_ofNat (n := n / 64 % 32 + 192) (by omega)
      have h2 := toNat_ofNat (n := n % 64 + 128) (by omega)
      have hsum : (n / 64 % 32 + 192 - 192) * 64 + (n % 64 + 128) % 64 = n := by omega
      rw [List.foldl_cons, push_two (by omega), List.foldl_cons, push_last (by omega), h1, h2,
        hsum, hchar, List.foldl_nil]
    · split
      · have h1 := toNat_ofNat (n := n / 4096 % 16 + 224) (by omega)
        have h2 := toNat_ofNat (n := n / 64 % 64 + 128) (by omega)
        have h3 := toNat_ofNat (n := n % 64 + 128) (by omega)
        have hsecond : secondLow (n / 4096 % 16 + 224) ≤ n / 64 % 64 + 128 ∧
            n / 64 % 64 + 128 ≤ secondHigh (n / 4096 % 16 + 224) := by
          unfold secondLow secondHigh
          repeat' split
          all_goals omega
        rw [← h1, ← h2] at hsecond
        have hsum : ((n / 4096 % 16 + 224 - 224) * 64 + (n / 64 % 64 + 128) % 64) * 64 +
            (n % 64 + 128) % 64 = n := by omega
        rw [List.foldl_cons, push_three (by omega), List.foldl_cons, push_more hsecond,
          List.foldl_cons, push_last (by omega), h1, h2, h3, hsum, hchar, List.foldl_nil]
      · have h1 := toNat_ofNat (n := n / 262144 % 8 + 240) (by omega)
        have h2 := toNat_ofNat (n := n / 4096 % 64 + 128) (by omega)
        have h3 := toNat_ofNat (n := n / 64 % 64 + 128) (by omega)
        have h4 := toNat_ofNat (n := n % 64 + 128) (by omega)
        have hsecond : secondLow (n / 262144 % 8 + 240) ≤ n / 4096 % 64 + 128 ∧
            n / 4096 % 64 + 128 ≤ secondHigh (n / 262144 % 8 + 240) := by
          unfold secondLow secondHigh
          repeat' split
          all_goals omega
        rw [← h1, ← h2] at hsecond
        have hsum : (((n / 262144 % 8 + 240 - 240) * 64 + (n / 4096 % 64 + 128) % 64) * 64 +
            (n / 64 % 64 + 128) % 64) * 64 + (n % 64 + 128) % 64 = n := by omega
        rw [List.foldl_cons, push_four (by omega), List.foldl_cons, push_more hsecond,
          List.foldl_cons, push_more (by omega), List.foldl_cons, push_last (by omega), h1, h2, h3,
          h4, hsum, hchar, List.foldl_nil]

/-- A character below 128 is its own byte. -/
theorem encodeChar_of_lt {c : Char} (h : c.toNat < 128) :
    String.utf8EncodeChar c = [c.toUInt8] := by
  have hval : c.val ≤ 127 := UInt32.le_iff_toNat_le.mpr (Nat.le_of_lt_succ h)
  exact String.utf8EncodeChar_eq_singleton (Char.utf8Size_eq_one_iff.mpr hval)

/-- Every other character starts with a byte that continues no sequence, and none of its bytes is
below 128. -/
theorem encodeChar_of_le {c : Char} (h : 128 ≤ c.toNat) :
    ∃ b more, String.utf8EncodeChar c = b :: more ∧ 192 ≤ b.toNat ∧ ∀ m ∈ more, 128 ≤ m.toNat := by
  have hvalid : c.toNat < 0xD800 ∨ 0xDFFF < c.toNat ∧ c.toNat < 0x110000 := c.valid
  have hval : c.val.toNat = c.toNat := rfl
  rw [String.utf8EncodeChar, hval]
  generalize c.toNat = n at *
  have hmore : ∀ k, 128 ≤ (UInt8.ofNat (k % 64 + 128)).toNat := by
    intro k
    rw [toNat_ofNat (by omega)]
    omega
  -- One case for each length of a sequence.
  split
  · omega
  · split
    · refine ⟨_, _, rfl, ?_, ?_⟩
      · rw [toNat_ofNat (by omega)]
        omega
      · simp only [List.forall_mem_cons, hmore, List.not_mem_nil, false_imp_iff, implies_true,
          and_true]
    · split
      · refine ⟨_, _, rfl, ?_, ?_⟩
        · rw [toNat_ofNat (by omega)]
          omega
        · simp only [List.forall_mem_cons, hmore, List.not_mem_nil, false_imp_iff, implies_true,
            and_true]
      · refine ⟨_, _, rfl, ?_, ?_⟩
        · rw [toNat_ofNat (by omega)]
          omega
        · simp only [List.forall_mem_cons, hmore, List.not_mem_nil, false_imp_iff, implies_true,
            and_true]

theorem toNat_toUInt8 {c : Char} (h : c.toNat < 128) : c.toUInt8.toNat = c.toNat :=
  toNat_ofNat (n := c.toNat) (by omega)

theorem mem_encodeChar {c : Char} : 10 ∈ String.utf8EncodeChar c ↔ c = '\n' := by
  constructor
  · intro h
    by_cases hone : c.toNat < 128
    · rw [encodeChar_of_lt hone, List.mem_singleton] at h
      have hnat : c.toNat = 10 := by
        rw [← toNat_toUInt8 hone, ← h]
        rfl
      rw [← Char.ofNat_toNat c, hnat]
    · obtain ⟨b, more, hencode, hfirst, hmore⟩ := encodeChar_of_le (Nat.le_of_not_lt hone)
      rw [hencode, List.mem_cons] at h
      rcases h with rfl | h
      · contradiction
      · have := hmore _ h
        contradiction
  · rintro rfl
    decide

/-! ### A text -/

theorem foldl_push_encode (text acc : List Char) :
    (encode text).foldl push (.start, acc) = (.start, text.reverse ++ acc) := by
  induction text generalizing acc with
  | nil => rfl
  | cons c text ih =>
    have hcons : encode (c :: text) = String.utf8EncodeChar c ++ encode text := List.flatMap_cons
    rw [hcons, List.foldl_append, push_char, ih, List.reverse_cons, List.append_assoc]
    rfl

theorem decode_encode (text : List Char) : decode (encode text) = text := by
  rw [decode, foldl_push_encode, List.append_nil]
  exact List.reverse_reverse text

theorem encode_append (text more : List Char) :
    encode (text ++ more) = encode text ++ encode more :=
  List.flatMap_append

/-- A line feed in the bytes of a text is one in the text. -/
theorem mem_encode {text : List Char} : 10 ∈ encode text ↔ '\n' ∈ text := by
  simp only [encode, List.mem_flatMap, mem_encodeChar, exists_eq_right]

end PinBench.Utf8
