import Mathlib.Data.List.Induction
import PinBench.Jtag.Shifter

/-! What one request does to the lines, phase by phase.  A request clocks a low and a high phase for
each of its bits, and a request without bits takes one phase that changes nothing.  `trace` is the
list of the levels after each phase, and `answer` the reply, whose captured bits are the levels of
data-out at the high phases.  `step_after` says that the shifter follows both. -/

namespace PinBench.Jtag

/-- Of the levels in the phases of a request, those in the high ones: every second. -/
def highPhases : List Bool → List Bool
  | _ :: high :: rest => high :: highPhases rest
  | _ => []

theorem highPhases_concat (levels : List Bool) (level : Bool) :
    highPhases (levels ++ [level]) =
      if levels.length % 2 = 1 then highPhases levels ++ [level] else highPhases levels := by
  induction levels using highPhases.induct with
  | case1 low high rest ih =>
    have hlen : (low :: high :: rest).length % 2 = rest.length % 2 := by
      simp only [List.length_cons]
      omega
    rw [List.cons_append, List.cons_append, highPhases, ih, highPhases, hlen]
    split <;> rfl
  | case2 levels hshort =>
    cases levels with
    | nil => rfl
    | cons low rest =>
      cases rest with
      | nil => rfl
      | cons high rest => exact absurd rfl (hshort low high rest)

theorem length_highPhases (levels : List Bool) :
    (highPhases levels).length = levels.length / 2 := by
  induction levels using highPhases.induct with
  | case1 low high rest ih =>
    simp only [highPhases, List.length_cons, ih]
    omega
  | case2 levels hshort =>
    cases levels with
    | nil => rfl
    | cons low rest =>
      cases rest with
      | nil => simp [highPhases]
      | cons high rest => exact absurd rfl (hshort low high rest)

theorem getElem?_highPhases (levels : List Bool) (i : Nat) :
    (highPhases levels)[i]? = levels[2 * i + 1]? := by
  induction levels using highPhases.induct generalizing i with
  | case1 low high rest ih =>
    cases i with
    | zero => rfl
    | succ i => exact ih i
  | case2 levels hshort =>
    cases levels with
    | nil => rfl
    | cons low rest =>
      cases rest with
      | nil => rfl
      | cons high rest => exact absurd rfl (hshort low high rest)

namespace Buffer

/-- A buffer with these bits at its front. -/
def ofLevels (levels : List Bool) : Buffer :=
  levels.zipIdx.foldl (fun buffer level => Bytes.setBit buffer level.2 level.1) (.ofBytes [])

theorem ofLevels_concat (levels : List Bool) (level : Bool) :
    ofLevels (levels ++ [level]) = Bytes.setBit (ofLevels levels) levels.length level := by
  simp only [ofLevels, List.zipIdx_append, List.foldl_append]
  simp

theorem bit_ofBytes_nil (i : Nat) : Bytes.bit (.ofBytes [] : Buffer) i = false := by
  unfold Bytes.bit
  split
  · simp [Buffer.ofBytes, Bytes.bitOf]
  · rfl

/-- The bits of such a buffer are the levels, as far as they fit, and low after them. -/
theorem bit_ofLevels (levels : List Bool) (i : Nat) :
    Bytes.bit (ofLevels levels) i = (decide (i < 8 * bufferSize) && levels.getD i false) := by
  induction levels using List.reverseRecOn generalizing i with
  | nil =>
    have hnil : ofLevels [] = .ofBytes [] := rfl
    rw [hnil, bit_ofBytes_nil]
    simp
  | append_singleton levels level ih =>
    rw [ofLevels_concat, Bytes.bit_setBit, ih]
    by_cases hi : i = levels.length
    · subst hi
      by_cases hfit : levels.length < 8 * bufferSize
      · have hbyte : levels.length / 8 < bufferSize := by omega
        simp [hbyte, hfit]
      · have hbyte : ¬levels.length / 8 < bufferSize := by omega
        simp [hbyte, hfit]
    · rw [if_neg (fun h => hi h.1)]
      congr 1
      by_cases hlt : i < levels.length
      · simp [List.getD_eq_getElem?_getD, List.getElem?_append_left hlt]
      · have : levels.length < i := by omega
        simp [List.getD_eq_getElem?_getD, List.getElem?_append_right (Nat.le_of_lt this),
          List.getElem?_eq_none (by omega : levels.length ≤ i),
          List.getElem?_eq_none (by simp; omega : [level].length ≤ i - levels.length)]

end Buffer

namespace Transfer

/-- The number of steps that a request takes. -/
def steps (t : Transfer) : Nat := max (2 * t.total) 1

/-- The levels after phase `j` of a request. -/
def phase (t : Transfer) (j : Nat) : Lines :=
  ⟨j % 2 == 1, { t with bit := j / 2 }.tms, { t with bit := j / 2 }.tdi⟩

/-- The levels after each step of a request, which finds the lines at `start`. -/
def trace (t : Transfer) (start : Lines) : List Lines :=
  if t.total = 0 then [start] else (List.range (2 * t.total)).map t.phase

/-- The levels that a request finds at its step `j`. -/
def levelAt (t : Transfer) (start : Lines) (j : Nat) : Lines :=
  ((t.trace start).take j).getLastD start

/-- The record of a request after its first steps, with data-out as given in them. -/
def captured (t : Transfer) (tdos : List Bool) : Record :=
  match t.waveform with
  | .scan _ => { t.record with captured := .ofLevels (highPhases tdos) }
  | .reset | .tms => t.record

/-- A request after its first steps, with data-out as given in them. -/
def after (t : Transfer) (tdos : List Bool) : Transfer :=
  { t with bit := tdos.length / 2, low := tdos.length % 2 == 1, record := t.captured tdos }

/-- The reply to a request, with data-out as given in its steps. -/
def answer (t : Transfer) (tdos : List Bool) : Option Record :=
  match t.waveform with
  | .scan _ => some (t.captured tdos)
  | .reset | .tms => none

structure Fresh (t : Transfer) : Prop where
  bit_eq : t.bit = 0
  low_eq : t.low = false
  captured_eq : t.record.captured = .ofBytes []

theorem fresh_of_ofCommand? {command : Command} {record : Record} {t : Transfer}
    (h : ofCommand? command record = some t) : t.Fresh := by
  cases command <;> simp only [ofCommand?, Option.some.injEq, reduceCtorEq] at h <;> subst h <;>
    exact ⟨rfl, rfl, rfl⟩

theorem after_nil {t : Transfer} (hfresh : t.Fresh) : t.after [] = t := by
  obtain ⟨waveform, record, bit, total, low⟩ := t
  obtain ⟨hbit, hlow, hcaptured⟩ := hfresh
  simp only at hbit hlow hcaptured
  subst hbit hlow
  have hrecord : { record with captured := .ofLevels (highPhases []) } = record := by
    rw [show Buffer.ofLevels (highPhases []) = .ofBytes [] from rfl, ← hcaptured]
  cases waveform <;> simp [after, captured, hrecord]

theorem steps_pos (t : Transfer) : 0 < t.steps := by
  unfold steps
  omega

theorem length_trace (t : Transfer) (start : Lines) : (t.trace start).length = t.steps := by
  unfold trace steps
  split
  · simp only [List.length_singleton]
    omega
  · simp only [List.length_map, List.length_range]
    omega

theorem levelAt_of_empty {t : Transfer} (hempty : t.total = 0) (start : Lines) (j : Nat) :
    t.levelAt start j = start := by
  rw [levelAt, trace, if_pos hempty]
  cases j <;> simp

theorem levelAt_succ {t : Transfer} {j : Nat} (hj : j < 2 * t.total) (start : Lines) :
    t.levelAt start (j + 1) = t.phase j := by
  have htotal : ¬t.total = 0 := by omega
  rw [levelAt, trace, if_neg htotal, ← List.map_take, List.take_range, Nat.min_eq_left hj,
    List.range_succ, List.map_append]
  simp

theorem capture_after (t : Transfer) {tdos : List Bool} (tdo : Bool) (hodd : tdos.length % 2 = 1) :
    (t.after tdos).capture tdo = t.after (tdos ++ [tdo]) := by
  have hhigh : highPhases (tdos ++ [tdo]) = highPhases tdos ++ [tdo] := by
    rw [highPhases_concat, if_pos hodd]
  have hbit : (tdos.length + 1) / 2 = tdos.length / 2 + 1 := by omega
  have hlow : ((tdos.length + 1) % 2 == 1) = false := by
    rw [beq_eq_false_iff_ne]
    omega
  cases hwaveform : t.waveform with
  | reset | tms => simp [after, capture, captured, hwaveform, hbit, hlow]
  | scan flipTms =>
    simp [after, capture, captured, hwaveform, hbit, hlow, hhigh, Buffer.ofLevels_concat,
      length_highPhases]

theorem low_after (t : Transfer) {tdos : List Bool} (tdo : Bool) (heven : tdos.length % 2 = 0) :
    { t.after tdos with low := true } = t.after (tdos ++ [tdo]) := by
  have hhigh : highPhases (tdos ++ [tdo]) = highPhases tdos := by
    rw [highPhases_concat, if_neg (by omega)]
  have hbit : (tdos.length + 1) / 2 = tdos.length / 2 := by omega
  have hlow : ((tdos.length + 1) % 2 == 1) = true := by
    rw [beq_iff_eq]
    omega
  simp [after, captured, hhigh, hbit, hlow]

theorem lines_after (t : Transfer) (tdos : List Bool) :
    (⟨tdos.length % 2 == 1, (t.after tdos).tms, (t.after tdos).tdi⟩ : Lines) =
      t.phase tdos.length := by
  cases hwaveform : t.waveform <;> simp [phase, tms, tdi, after, captured, hwaveform]

theorem reply?_after (t : Transfer) (tdos : List Bool) : (t.after tdos).reply? = t.answer tdos := by
  cases hwaveform : t.waveform <;> simp [reply?, after, answer, hwaveform]

end Transfer

/-- One step of the shifter takes a request one phase on.  After its last step the request is over,
and answered if it is a scan. -/
theorem Shifter.step_after (t : Transfer) (start : Lines) {tdos : List Bool} (tdo : Bool)
    (hlt : tdos.length < t.steps) :
    Shifter.step ⟨some (t.after tdos), t.levelAt start tdos.length⟩ tdo =
      if tdos.length + 1 < t.steps then
        (⟨some (t.after (tdos ++ [tdo])), t.levelAt start (tdos.length + 1)⟩, none)
      else (⟨none, t.levelAt start (tdos.length + 1)⟩, t.answer (tdos ++ [tdo])) := by
  have hbit : (t.after tdos).bit = tdos.length / 2 := rfl
  have htotal : ∀ tdos, (t.after tdos).total = t.total := fun _ => rfl
  have hlow : (t.after tdos).low = (tdos.length % 2 == 1) := rfl
  simp only [Shifter.step, hbit, htotal]
  by_cases hempty : t.total = 0
  · -- A request without bits: its one step leaves the lines alone.
    have hnil : tdos = [] := by
      simp only [Transfer.steps, hempty] at hlt
      exact List.length_eq_zero_iff.mp (by omega)
    subst hnil
    have hanswer : t.answer [tdo] = t.answer [] := by
      simp [Transfer.answer, Transfer.captured, highPhases]
    simp [hempty, Transfer.levelAt_of_empty hempty, Transfer.steps, Transfer.reply?_after, hanswer]
  · have hsteps : t.steps = 2 * t.total := by
      unfold Transfer.steps
      omega
    rw [hsteps] at hlt ⊢
    rw [if_pos (by omega), t.levelAt_succ hlt, hlow]
    rcases Nat.mod_two_eq_zero_or_one tdos.length with heven | hodd
    · -- A low phase, which is never the last.
      have hlines := t.lines_after tdos
      rw [show (tdos.length % 2 == 1) = false by simp [heven]] at hlines ⊢
      rw [if_neg (by decide), if_pos (by omega), ← t.low_after tdo heven, ← hlines]
      rfl
    · -- A high phase: mode-select and data-in stay as the low phase before it left them.
      have hlines : { t.levelAt start tdos.length with tck := true } = t.phase tdos.length := by
        obtain ⟨j, hj⟩ : ∃ j, tdos.length = j + 1 := ⟨tdos.length - 1, by omega⟩
        have hbit : (j + 1) / 2 = j / 2 := by omega
        rw [hj] at hodd hlt ⊢
        rw [t.levelAt_succ (by omega)]
        simp [Transfer.phase, hbit, hodd]
      rw [show (tdos.length % 2 == 1) = true by simp [hodd], if_pos rfl, t.capture_after tdo hodd,
        hlines, t.reply?_after]
      have hnext : (t.after (tdos ++ [tdo])).bit = (tdos.length + 1) / 2 := by
        simp [Transfer.after]
      rw [hnext, htotal]
      by_cases hlast : tdos.length + 1 < 2 * t.total
      · rw [if_pos (by omega), if_pos hlast]
      · rw [if_neg (by omega), if_neg hlast]

end PinBench.Jtag
