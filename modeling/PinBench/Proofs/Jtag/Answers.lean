import PinBench.Proofs.Jtag.Clocking
import PinBench.Proofs.Jtag.Codec

/-! The bytes that answer a stream, as a client reads them back.  A scan that is over is answered
with one record, which is its request with the captured bits filled in from data-out.  `RepliesTo`
reads such records off some bytes and says of each bit what it is, whatever way the server took to
put a reply together; `repliesTo_encode` says that its replies are of that kind. -/

namespace PinBench.Jtag

/-- Whether data-out is captured while a request is clocked. -/
def Transfer.captures (t : Transfer) : Bool :=
  match t.waveform with
  | .scan _ => true
  | .reset | .tms => false

/-- A record answers a request in which data-out was at `levels`: captured bit `i` is level `i`, all
bits after them are low, and everything else is as in the request. -/
structure Record.Answers (r : Record) (t : Transfer) (levels : List Bool) : Prop where
  code_eq : r.code = t.record.code
  out_eq : r.out = t.record.out
  length_eq : r.length = t.record.length
  bits_eq : r.bits = t.record.bits
  bit_captured : ∀ i < 8 * bufferSize, Bytes.bit r.captured i = levels.getD i false

/-- A record with these bits captured. -/
def Record.filled (r : Record) (levels : List Bool) : Record :=
  { r with captured := .ofLevels levels }

/-- Those of some requests that are over and that capture data-out, each with the levels of its own
high phases, when data-out was as given in the steps. -/
def capturing : List Transfer → List Bool → List (Transfer × List Bool)
  | [], _ => []
  | t :: rest, tdos =>
    if tdos.length < t.steps then []
    else
      (if t.captures then [(t, highPhases (tdos.take t.steps))] else []) ++
        capturing rest (tdos.drop t.steps)

/-- The bytes are one reply after another, one for each of some requests with the levels that they
captured. -/
inductive RepliesTo : List (Transfer × List Bool) → List UInt8 → Prop
  | nil : RepliesTo [] []
  | cons {t : Transfer} {levels : List Bool} {more : List (Transfer × List Bool)}
      {reply rest : List UInt8} {r : Record} (hlen : reply.length = recordSize)
      (hdecode : Record.decode? reply = some r) (hanswers : r.Answers t levels)
      (hrest : RepliesTo more rest) : RepliesTo ((t, levels) :: more) (reply ++ rest)

theorem Record.filled_answers (t : Transfer) (levels : List Bool) :
    (t.record.filled levels).Answers t levels := by
  refine ⟨rfl, rfl, rfl, rfl, fun i hi => ?_⟩
  rw [filled, Buffer.bit_ofLevels, decide_eq_true hi, Bool.true_and]

theorem Transfer.captured_eq {t : Transfer} (hcaptures : t.captures = true) (tdos : List Bool) :
    t.captured tdos = t.record.filled (highPhases tdos) := by
  cases hwaveform : t.waveform with
  | reset | tms => simp [captures, hwaveform] at hcaptures
  | scan flipTms => simp only [captured, hwaveform, Record.filled]

theorem Transfer.answer_eq (t : Transfer) (tdos : List Bool) :
    t.answer tdos = if t.captures then some (t.captured tdos) else none := by
  cases hwaveform : t.waveform <;> simp [answer, captures, hwaveform]

theorem Record.Answers.unique {t : Transfer} {levels : List Bool} {r other : Record}
    (hr : r.Answers t levels) (hother : other.Answers t levels) : r = other := by
  have hcaptured : r.captured = other.captured :=
    Bytes.ext_bit fun i hi => (hr.bit_captured i hi).trans (hother.bit_captured i hi).symm
  obtain ⟨code, out, captured, length, bits⟩ := r
  obtain ⟨hcode, hout, hlength, hbits, -⟩ := hr
  obtain ⟨hcode', hout', hlength', hbits', -⟩ := hother
  simp only at hcaptured hcode hout hlength hbits
  simp [hcode, hout, hlength, hbits, hcaptured, ← hcode', ← hout', ← hlength', ← hbits']

/-- There is one way to answer. -/
theorem RepliesTo.unique {scans : List (Transfer × List Bool)} {bytes other : List UInt8}
    (hbytes : RepliesTo scans bytes) (hother : RepliesTo scans other) : bytes = other := by
  induction hbytes generalizing other with
  | nil =>
    cases hother
    rfl
  | cons hlen hdecode hanswers _ ih =>
    cases hother with
    | cons hlen' hdecode' hanswers' hrest' =>
      rw [hanswers.unique hanswers'] at hdecode
      rw [← (Record.decode?_eq_some_iff hlen _).mp hdecode,
        (Record.decode?_eq_some_iff hlen' _).mp hdecode', ih hrest']

theorem RepliesTo.cons_encode {t : Transfer} {levels : List Bool}
    {more : List (Transfer × List Bool)} {r : Record} {rest : List UInt8}
    (hanswers : r.Answers t levels) (hrest : RepliesTo more rest) :
    RepliesTo ((t, levels) :: more) (r.encode ++ rest) := by
  have hdecode := r.decode?_encode []
  rw [List.append_nil] at hdecode
  exact .cons r.length_encode hdecode hanswers hrest

theorem repliesTo_of_filled (scans : List (Transfer × List Bool)) (bytes : List UInt8)
    (h : scans.flatMap (fun scan => (scan.1.record.filled scan.2).encode) = bytes) :
    RepliesTo scans bytes := by
  subst h
  induction scans with
  | nil => exact .nil
  | cons scan more ih =>
    exact .cons_encode (Record.filled_answers scan.1 scan.2) ih

theorem replies_eq (requests : List Transfer) (tdos : List Bool) :
    replies requests tdos =
      (capturing requests tdos).map fun scan => scan.1.record.filled scan.2 := by
  induction requests generalizing tdos with
  | nil => rfl
  | cons t rest ih =>
    rw [capturing, replies]
    by_cases hshort : tdos.length < t.steps
    · rw [if_pos hshort, if_pos hshort]
      rfl
    · rw [if_neg hshort, if_neg hshort, t.answer_eq, ih]
      cases hcaptures : t.captures with
      | false => rfl
      | true =>
        rw [t.captured_eq hcaptures]
        rfl

theorem repliesTo_encode (requests : List Transfer) (tdos : List Bool) :
    RepliesTo (capturing requests tdos) ((replies requests tdos).flatMap Record.encode) := by
  exact repliesTo_of_filled _ _ (by rw [replies_eq, List.flatMap_map])

/-- The buffer of no bytes, written out. -/
theorem Buffer.ofBytes_nil : Buffer.ofBytes [] = .replicate bufferSize 0 := by
  apply Vector.ext
  intro i hi
  simp [Buffer.ofBytes]

end PinBench.Jtag
