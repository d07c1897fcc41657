import PinBench.Proofs.Jtag.Phases

/-! The requests in a stream of bytes.  A stream is made of records, each of `recordSize` bytes.
Its requests are those of the records up to the first that is refused or asks to stop; `ending` says
which of the two came, if any.  `Leads` compares a stream with what is left of it once some of its
requests have been taken, and does not mind what arrives later. -/

namespace PinBench.Jtag

namespace Record

theorem decode?_eq_none_iff (bytes : List UInt8) :
    decode? bytes = none ↔ bytes.length < recordSize := by
  unfold decode?
  split
  · rename_i hlong
    simp [hlong]
  · rename_i hshort
    simp only [true_iff]
    omega

theorem word32_append {bytes : List UInt8} (hlong : 4 ≤ bytes.length) (more : List UInt8) :
    Bytes.word32 (bytes ++ more) = Bytes.word32 bytes := by
  have hget : ∀ i < 4, (bytes ++ more).getD i 0 = bytes.getD i 0 := by
    intro i hi
    rw [List.getD_eq_getElem?_getD, List.getElem?_append_left (by omega),
      ← List.getD_eq_getElem?_getD]
  unfold Bytes.word32
  rw [hget 0 (by decide), hget 1 (by decide), hget 2 (by decide), hget 3 (by decide)]

/-- What is decoded is the record at the front. -/
theorem decode?_append {bytes : List UInt8} (hlong : recordSize ≤ bytes.length)
    (more : List UInt8) : decode? (bytes ++ more) = decode? bytes := by
  have hsize : recordSize = 4 + bufferSize + bufferSize + 4 + 4 := rfl
  have hdrop : ∀ n ≤ recordSize, (bytes ++ more).drop n = bytes.drop n ++ more := by
    intro n hn
    exact List.drop_append_of_le_length (by omega)
  have htake : ∀ n ≤ recordSize - bufferSize,
      (bytes.drop n ++ more).take bufferSize = (bytes.drop n).take bufferSize := by
    intro n hn
    apply List.take_append_of_le_length
    rw [List.length_drop]
    omega
  have hword : ∀ n ≤ recordSize - 4,
      Bytes.word32 (bytes.drop n ++ more) = Bytes.word32 (bytes.drop n) := by
    intro n hn
    apply word32_append
    rw [List.length_drop]
    omega
  have hlong' : recordSize ≤ (bytes ++ more).length := by
    rw [List.length_append]
    omega
  unfold decode?
  rw [dif_pos hlong, dif_pos hlong']
  simp only [List.drop_drop, Option.some.injEq, mk.injEq, Vector.mk.injEq]
  refine ⟨word32_append (by omega) more, ?_, ?_, ?_, ?_⟩
  · rw [hdrop _ (by omega), htake _ (by omega)]
  · rw [hdrop _ (by omega), htake _ (by omega)]
  · rw [hdrop _ (by omega), hword _ (by omega)]
  · rw [hdrop _ (by omega), hword _ (by omega)]

/-- The complete records of a stream. -/
def decodeAll (bytes : List UInt8) : List Record :=
  if recordSize ≤ bytes.length then
    (decode? bytes).toList ++ decodeAll (bytes.drop recordSize)
  else []
termination_by bytes.length
decreasing_by
  have : 0 < recordSize := by decide
  rw [List.length_drop]
  omega

theorem decodeAll_of_short {bytes : List UInt8} (hshort : bytes.length < recordSize) :
    decodeAll bytes = [] := by
  rw [decodeAll, if_neg (Nat.not_le.mpr hshort)]

theorem decodeAll_append {raw : List UInt8} {r : Record} (hlen : raw.length = recordSize)
    (hdecode : decode? raw = some r) (rest : List UInt8) :
    decodeAll (raw ++ rest) = r :: decodeAll rest := by
  have hlong : recordSize ≤ (raw ++ rest).length := by
    rw [List.length_append]
    omega
  rw [decodeAll, if_pos hlong, decode?_append (Nat.le_of_eq hlen.symm), hdecode,
    List.drop_left' hlen]
  rfl

/-- The request of a record, if it is one that can be clocked. -/
def transfer? (r : Record) : Option Transfer :=
  match r.command with
  | .ok command => Transfer.ofCommand? command r
  | .error _ => none

end Record

/-- What a stream comes to after its requests. -/
inductive Ending where
  | more
  | stopped
  | refused
  deriving DecidableEq, Repr

/-- The ending that a record makes by itself. -/
def Record.ending? (r : Record) : Option Ending :=
  match r.command with
  | .ok .stop => some .stopped
  | .ok _ => none
  | .error _ => some .refused

/-- The requests among some records, up to the first record that is none. -/
def requestsOf : List Record → List Transfer
  | [] => []
  | r :: rest =>
    match r.transfer? with
    | some t => t :: requestsOf rest
    | none => []

/-- What some records come to after their requests. -/
def endingOf : List Record → Ending
  | [] => .more
  | r :: rest => r.ending?.getD (endingOf rest)

def requests (bytes : List UInt8) : List Transfer := requestsOf (Record.decodeAll bytes)

/-- What a stream comes to after its requests. -/
def ending (bytes : List UInt8) : Ending := endingOf (Record.decodeAll bytes)

theorem requests_of_short {bytes : List UInt8} (hshort : bytes.length < recordSize) :
    requests bytes = [] := by
  rw [requests, Record.decodeAll_of_short hshort, requestsOf]

theorem ending_of_short {bytes : List UInt8} (hshort : bytes.length < recordSize) :
    ending bytes = .more := by
  rw [ending, Record.decodeAll_of_short hshort, endingOf]

section FirstRecord

variable {raw : List UInt8} {r : Record} (hlen : raw.length = recordSize)
  (hdecode : Record.decode? raw = some r) (rest : List UInt8)
include hlen hdecode

theorem requests_append {t : Transfer} (ht : r.transfer? = some t) :
    requests (raw ++ rest) = t :: requests rest := by
  rw [requests, Record.decodeAll_append hlen hdecode, requestsOf, ht]
  rfl

theorem requests_append_of_none (hnone : r.transfer? = none) : requests (raw ++ rest) = [] := by
  rw [requests, Record.decodeAll_append hlen hdecode, requestsOf, hnone]

theorem ending_append : ending (raw ++ rest) = r.ending?.getD (ending rest) := by
  rw [ending, Record.decodeAll_append hlen hdecode, endingOf]
  rfl

end FirstRecord

theorem Record.ending?_of_transfer? {r : Record} {t : Transfer} (ht : r.transfer? = some t) :
    r.ending? = none := by
  unfold Record.transfer? at ht
  unfold Record.ending?
  cases hcommand : r.command with
  | error e => simp [hcommand] at ht
  | ok command => cases command <;> simp [hcommand, Transfer.ofCommand?] at ht ⊢

/-- Nothing that arrives after the ending adds a request. -/
theorem requests_append_of_ending {bytes : List UInt8} (h : ending bytes ≠ .more)
    (more : List UInt8) : requests (bytes ++ more) = requests bytes := by
  induction bytes using Record.decodeAll.induct with
  | case2 bytes hshort => exact absurd (ending_of_short (Nat.lt_of_not_le hshort)) h
  | case1 bytes hlong ih =>
    have hsplit : bytes.take recordSize ++ bytes.drop recordSize = bytes :=
      List.take_append_drop _ _
    have hlen : (bytes.take recordSize).length = recordSize := List.length_take_of_le hlong
    obtain ⟨r, hdecode⟩ : ∃ r, Record.decode? (bytes.take recordSize) = some r := by
      refine Option.ne_none_iff_exists'.mp fun hnone => ?_
      have := (Record.decode?_eq_none_iff _).mp hnone
      omega
    rw [← hsplit, List.append_assoc]
    cases ht : r.transfer? with
    | none =>
      rw [requests_append_of_none hlen hdecode _ ht, requests_append_of_none hlen hdecode _ ht]
    | some t =>
      have hending : ending bytes = ending (bytes.drop recordSize) := by
        conv => lhs; rw [← hsplit]
        rw [ending_append hlen hdecode, Record.ending?_of_transfer? ht]
        rfl
      rw [requests_append hlen hdecode _ ht, requests_append hlen hdecode _ ht,
        ih (hending ▸ h)]

/-- The stream `bytes` starts with the requests `done` and goes on as `rest` does, whatever arrives
later. -/
def Leads (bytes : List UInt8) (done : List Transfer) (rest : List UInt8) : Prop :=
  ∀ more, requests (bytes ++ more) = done ++ requests (rest ++ more) ∧
    ending (bytes ++ more) = ending (rest ++ more)

namespace Leads

variable {bytes rest : List UInt8} {done : List Transfer}

theorem refl (bytes : List UInt8) : Leads bytes [] bytes := fun _ => ⟨rfl, rfl⟩

theorem requests_eq (h : Leads bytes done rest) : requests bytes = done ++ requests rest := by
  have := (h []).1
  rwa [List.append_nil, List.append_nil] at this

theorem ending_eq (h : Leads bytes done rest) : ending bytes = ending rest := by
  have := (h []).2
  rwa [List.append_nil, List.append_nil] at this

theorem arrive (h : Leads bytes done rest) (new : List UInt8) :
    Leads (bytes ++ new) done (rest ++ new) := by
  intro more
  rw [List.append_assoc, List.append_assoc]
  exact h (new ++ more)

/-- A request is taken from what is left. -/
theorem take {raw : List UInt8} {r : Record} {t : Transfer} (h : Leads bytes done (raw ++ rest))
    (hlen : raw.length = recordSize) (hdecode : Record.decode? raw = some r)
    (ht : r.transfer? = some t) : Leads bytes (done ++ [t]) rest := by
  intro more
  obtain ⟨hrequests, hending⟩ := h more
  rw [List.append_assoc] at hrequests hending
  constructor
  · rw [hrequests, requests_append hlen hdecode _ ht, List.append_assoc]
    rfl
  · rw [hending, ending_append hlen hdecode, Record.ending?_of_transfer? ht]
    rfl

theorem isPrefix (h : Leads bytes done rest) (more : List UInt8) :
    done <+: requests (bytes ++ more) := by
  rw [(h more).1]
  exact List.prefix_append _ _

end Leads

end PinBench.Jtag
