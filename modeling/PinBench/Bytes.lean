/-! Bytes: single bits of a byte buffer, least significant first within each byte, and 32-bit words
as four bytes, least significant byte first.

* `bit_setBit` says what a write of one bit leaves in every bit of the buffer.
* `word32_bytes32` says that a word is read back from its bytes, and `bytes32_word32` that four
  bytes are those of the word read from them. -/

namespace PinBench.Bytes

def bitOf (b : UInt8) (i : Nat) : Bool := b.toBitVec.getLsbD i

/-- `b` with bit `i` made `value`. -/
def withBit (b : UInt8) (i : Nat) (value : Bool) : UInt8 :=
  ⟨if value then b.toBitVec ||| (1#8 <<< i) else b.toBitVec &&& ~~~(1#8 <<< i)⟩

/-- Bit `i` of a buffer, low where the buffer has ended. -/
def bit {n : Nat} (buffer : Vector UInt8 n) (i : Nat) : Bool :=
  if h : i / 8 < n then bitOf buffer[i / 8] (i % 8) else false

/-- A buffer with bit `i` made `value`.  A bit past the end is dropped. -/
def setBit {n : Nat} (buffer : Vector UInt8 n) (i : Nat) (value : Bool) : Vector UInt8 n :=
  if h : i / 8 < n then buffer.set (i / 8) (withBit buffer[i / 8] (i % 8) value) h else buffer

theorem bitOf_withBit (b : UInt8) (i j : Nat) (value : Bool) (hi : i < 8) :
    bitOf (withBit b i value) j = if j = i then value else bitOf b j := by
  simp only [bitOf, withBit]
  by_cases hj : j < 8
  · cases value
    · by_cases h : j = i
      · subst h; simp [hj]
      · simp only [Bool.false_eq_true, ite_false, BitVec.getLsbD_and, BitVec.getLsbD_not,
          BitVec.getLsbD_shiftLeft, BitVec.getLsbD_one, if_neg h]
        by_cases hl : j < i
        · simp [hl, hj]
        · have : j - i ≠ 0 := by omega
          simp [this, hj]
    · by_cases h : j = i
      · subst h; simp [hj]
      · simp only [ite_true, BitVec.getLsbD_or, BitVec.getLsbD_shiftLeft, BitVec.getLsbD_one,
          if_neg h]
        by_cases hl : j < i
        · simp [hl]
        · have : j - i ≠ 0 := by omega
          simp [this]
  · have h : j ≠ i := by omega
    rw [if_neg h, BitVec.getLsbD_of_ge _ _ (Nat.le_of_not_lt hj),
      BitVec.getLsbD_of_ge _ _ (Nat.le_of_not_lt hj)]

/-- After a write of bit `i`, bit `i` holds the value if the buffer has such a bit, and every other
bit is as before. -/
theorem bit_setBit {n : Nat} (buffer : Vector UInt8 n) (i j : Nat) (value : Bool) :
    bit (setBit buffer i value) j =
      if j = i ∧ i / 8 < n then value else bit buffer j := by
  unfold bit setBit
  by_cases hj : j / 8 < n
  · by_cases hi : i / 8 < n
    · simp only [hi, hj, dite_true, and_true]
      rw [Vector.getElem_set]
      by_cases hb : i / 8 = j / 8
      · rw [if_pos hb, bitOf_withBit _ _ _ _ (Nat.mod_lt _ (by decide))]
        by_cases h : j = i
        · subst h; simp
        · have : ¬ j % 8 = i % 8 := by omega
          simp [h, this, hb]
      · have : j ≠ i := fun h => hb (by rw [h])
        simp [hb, this]
    · simp [hi, hj]
  · have : ¬(j = i ∧ i / 8 < n) := by rintro ⟨rfl, h⟩; exact hj h
    simp [hj, this]

/-- Buffers with the same bits are the same. -/
theorem ext_bit {n : Nat} {a b : Vector UInt8 n} (h : ∀ i < 8 * n, bit a i = bit b i) :
    a = b := by
  refine Vector.ext fun k hk => UInt8.toBitVec_inj.mp (BitVec.eq_of_getLsbD_eq fun j hj => ?_)
  have hbit := h (8 * k + j) (by omega)
  have hbyte : (8 * k + j) / 8 = k := by omega
  have hplace : (8 * k + j) % 8 = j := by omega
  simpa only [bit, hbyte, hplace, hk, dite_true, bitOf] using hbit

/-- The four bytes of a word, least significant first. -/
def bytes32 (w : UInt32) : List UInt8 :=
  [UInt8.ofNat w.toNat, UInt8.ofNat (w.toNat / 256), UInt8.ofNat (w.toNat / 65536),
    UInt8.ofNat (w.toNat / 16777216)]

/-- The word that the first four bytes of a list make up, least significant first.  Missing bytes
count as zero. -/
def word32 (bytes : List UInt8) : UInt32 :=
  UInt32.ofNat ((bytes.getD 0 0).toNat + 256 * (bytes.getD 1 0).toNat +
    65536 * (bytes.getD 2 0).toNat + 16777216 * (bytes.getD 3 0).toNat)

theorem length_bytes32 (w : UInt32) : (bytes32 w).length = 4 := rfl

theorem word32_bytes32 (w : UInt32) (rest : List UInt8) : word32 (bytes32 w ++ rest) = w := by
  have h := w.toNat_lt
  apply UInt32.toNat_inj.mp
  simp only [word32, bytes32, List.cons_append, List.getD_cons_zero, List.getD_cons_succ,
    List.nil_append, UInt8.toNat_ofNat', UInt32.toNat_ofNat']
  omega

theorem bytes32_word32 {bytes : List UInt8} (hlong : 4 ≤ bytes.length) :
    bytes32 (word32 bytes) = bytes.take 4 := by
  obtain ⟨a, b, c, d, rest, rfl⟩ : ∃ a b c d rest, bytes = a :: b :: c :: d :: rest := by
    match bytes, hlong with
    | a :: b :: c :: d :: rest, _ => exact ⟨a, b, c, d, rest, rfl⟩
  have ha := a.toNat_lt
  have hb := b.toNat_lt
  have hc := c.toNat_lt
  have hd := d.toNat_lt
  have hword : (word32 (a :: b :: c :: d :: rest)).toNat =
      a.toNat + 256 * b.toNat + 65536 * c.toNat + 16777216 * d.toNat := by
    simp only [word32, List.getD_cons_zero, List.getD_cons_succ, UInt32.toNat_ofNat']
    omega
  have hbyte : ∀ (x : UInt8) (n : Nat), n % 256 = x.toNat → UInt8.ofNat n = x := by
    intro x n h
    apply UInt8.toNat_inj.mp
    rw [UInt8.toNat_ofNat']
    exact h
  simp only [bytes32, hword, List.take_succ_cons, List.take_zero, List.cons.injEq, and_true]
  refine ⟨hbyte a _ ?_, hbyte b _ ?_, hbyte c _ ?_, hbyte d _ ?_⟩ <;> omega

end PinBench.Bytes
