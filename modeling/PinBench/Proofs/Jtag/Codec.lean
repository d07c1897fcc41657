import Mathlib.Data.Set.Function
import PinBench.Proofs.Jtag.Requests

/-! Records and their bytes.  `decode?_encode` reads a record back from its bytes, whatever follows
them.  `exists_decode?` is the other way round: any bytes, if they are enough, start with a record,
and that record has just those bytes.  So records and lists of `recordSize` bytes are the same
thing. -/

namespace PinBench.Jtag.Record

variable {bytes : List UInt8}

theorem decode?_encode (r : Record) (tail : List UInt8) : decode? (r.encode ++ tail) = some r := by
  have hlong : recordSize ≤ (r.encode ++ tail).length := by
    rw [List.length_append, length_encode]
    omega
  have hword : ∀ (w : UInt32) (rest : List UInt8), (Bytes.bytes32 w ++ rest).drop 4 = rest :=
    fun w rest => List.drop_left' (Bytes.length_bytes32 w)
  have hdrop : ∀ (b : Buffer) (rest : List UInt8), (b.toList ++ rest).drop bufferSize = rest :=
    fun b rest => List.drop_left' b.length_toList
  have htake : ∀ (b : Buffer) (rest : List UInt8),
      (b.toList ++ rest).take bufferSize = b.toList :=
    fun b rest => List.take_left' b.length_toList
  rw [decode?, dif_pos hlong]
  simp only [encode, List.append_assoc, hword, hdrop, htake, Bytes.word32_bytes32]
  rfl

theorem encode_injective : Function.Injective encode := by
  intro r other heq
  have hr := decode?_encode r []
  rw [heq, decode?_encode] at hr
  exact (Option.some_inj.mp hr).symm

/-- The bytes of a record in their five parts. -/
theorem take_recordSize (bytes : List UInt8) :
    bytes.take recordSize = bytes.take 4 ++ ((bytes.drop 4).take bufferSize ++
      (((bytes.drop 4).drop bufferSize).take bufferSize ++
        ((((bytes.drop 4).drop bufferSize).drop bufferSize).take 4 ++
          ((((bytes.drop 4).drop bufferSize).drop bufferSize).drop 4).take 4))) := by
  have hsize : recordSize = 4 + (bufferSize + (bufferSize + (4 + 4))) := rfl
  rw [hsize, List.take_add, List.take_add, List.take_add, List.take_add]

/-- Enough bytes start with a record, whose own bytes are the first of them. -/
theorem exists_decode? (hlong : recordSize ≤ bytes.length) :
    ∃ r, decode? bytes = some r ∧ r.encode = bytes.take recordSize := by
  have hsize : recordSize = 4 + bufferSize + bufferSize + 4 + 4 := rfl
  have hafter : ((bytes.drop 4).drop bufferSize).drop bufferSize =
      bytes.drop (4 + bufferSize + bufferSize) := by
    rw [List.drop_drop, List.drop_drop, Nat.add_assoc]
  have hcode : Bytes.bytes32 (Bytes.word32 bytes) = bytes.take 4 := by
    apply Bytes.bytes32_word32
    omega
  have hlength : Bytes.bytes32 (Bytes.word32 (bytes.drop (4 + bufferSize + bufferSize))) =
      (bytes.drop (4 + bufferSize + bufferSize)).take 4 := by
    apply Bytes.bytes32_word32
    rw [List.length_drop]
    omega
  have hbits : Bytes.bytes32 (Bytes.word32 ((bytes.drop (4 + bufferSize + bufferSize)).drop 4)) =
      ((bytes.drop (4 + bufferSize + bufferSize)).drop 4).take 4 := by
    apply Bytes.bytes32_word32
    rw [List.length_drop, List.length_drop]
    omega
  rw [decode?, dif_pos hlong]
  refine ⟨_, rfl, ?_⟩
  rw [take_recordSize]
  simp only [encode, Vector.toList_mk, hafter, hcode, hlength, hbits]

theorem decode?_eq_some_iff (hlen : bytes.length = recordSize) (r : Record) :
    decode? bytes = some r ↔ r.encode = bytes := by
  constructor
  · intro hdecode
    obtain ⟨found, hfound, hencode⟩ := exists_decode? (Nat.le_of_eq hlen.symm)
    rw [hdecode, Option.some_inj] at hfound
    rw [hfound, hencode]
    exact List.take_of_length_le (Nat.le_of_eq hlen)
  · rintro rfl
    have h := decode?_encode r []
    rwa [List.append_nil] at h

/-- The codec of the records.  A record has 1036 bytes and is read back from them, whatever follows;
1036 bytes or more are read as the record with the first 1036 of them; fewer are no record.  So
writing is a bijection from the records to the lists of 1036 bytes, and reading is its inverse. -/
theorem records_roundTrip :
    (∀ (r : Record) (tail : List UInt8),
      r.encode.length = 1036 ∧ decode? (r.encode ++ tail) = some r) ∧
    (∀ bytes : List UInt8, 1036 ≤ bytes.length →
      ∃ r, decode? bytes = some r ∧ r.encode = bytes.take 1036) ∧
    (∀ bytes : List UInt8, bytes.length < 1036 → decode? bytes = none) ∧
    Set.BijOn encode Set.univ {bytes | bytes.length = 1036} ∧
    ∀ bytes : List UInt8, bytes.length = 1036 →
      ∀ r, decode? bytes = some r ↔ r.encode = bytes := by
  refine ⟨fun r tail => ⟨r.length_encode, decode?_encode r tail⟩, fun bytes => exists_decode?,
    fun bytes => (decode?_eq_none_iff bytes).mpr, ⟨?_, encode_injective.injOn, ?_⟩,
    fun bytes => decode?_eq_some_iff⟩
  · intro r _
    exact r.length_encode
  · intro bytes hlen
    obtain ⟨r, -, hencode⟩ := exists_decode? (Nat.le_of_eq (Eq.symm hlen))
    refine ⟨r, trivial, ?_⟩
    rw [hencode]
    exact List.take_of_length_le (Nat.le_of_eq hlen)

theorem records_roundTrip_scanRequest :
    let r := request .scan [0xA5, 0x01] 9
    let bytes := List.replicate 1037 (0xA5 : UInt8)
    (1036 ≤ bytes.length ∧ (bytes.take 1035).length < 1036 ∧ (bytes.take 1036).length = 1036) ∧
    decode? (r.encode ++ [7]) = some r ∧
    (∃ q, decode? bytes = some q ∧ q.encode = bytes.take 1036) ∧
    decode? (bytes.take 1035) = none ∧
    ∃ q, decode? (bytes.take 1036) = some q ∧ q.encode = bytes.take 1036 := by
  intro r bytes
  have hlen : bytes.length = 1037 := List.length_replicate
  have hlong : 1036 ≤ bytes.length := by omega
  have hshort : (bytes.take 1035).length < 1036 := by
    rw [List.length_take]
    omega
  have hexact : (bytes.take 1036).length = 1036 := by
    rw [List.length_take]
    omega
  obtain ⟨hback, hread, hnone, hbij, hinverse⟩ := records_roundTrip
  obtain ⟨q, -, hq⟩ := hbij.surjOn hexact
  exact ⟨⟨hlong, hshort, hexact⟩, (hback r [7]).2, hread bytes hlong, hnone _ hshort, q,
    (hinverse _ hexact q).mpr hq, hq⟩

end PinBench.Jtag.Record
