import Mathlib.Data.List.Induction
import PinBench.Model.Tap

/-! Scans through a test access port.  A scan captures into a register, shifts it while the port is
in the shift state, and may pause in between.  `scan_shifts_through` says that what comes out are
the bits that were captured and then the bits that went in, and that a new instruction is what the
instruction register holds at the update. -/

namespace PinBench.Model

/-- Mode-select and data-in in one period of the test clock. -/
structure Pulse where
  tms : Bool
  tdi : Bool
  deriving DecidableEq, Repr

/-- The two registers that a scan goes through, each with a column of states. -/
inductive ScanPath where
  | data
  | instruction
  deriving DecidableEq, Repr

namespace ScanPath

def captureState : ScanPath → TapState
  | .data => .captureDr
  | .instruction => .captureIr

def shiftState : ScanPath → TapState
  | .data => .shiftDr
  | .instruction => .shiftIr

/-- The states of one scan, from the capture to the update. -/
def column : ScanPath → List TapState
  | .data => [.captureDr, .shiftDr, .exit1Dr, .pauseDr, .exit2Dr, .updateDr]
  | .instruction => [.captureIr, .shiftIr, .exit1Ir, .pauseIr, .exit2Ir, .updateIr]

/-- The bits that a scan captures, in the order in which they come out. -/
def captured (path : ScanPath) (t : Tap) : List Bool :=
  match path with
  | .data =>
    if t.instruction = idcodeInstruction then (List.range 32).map t.idcode.toBitVec.getLsbD
    else [false]
  | .instruction => [true, false, false, false, false]

end ScanPath

namespace Tap

/-- The port in the low half of a clock period. -/
def lowered (t : Tap) (p : Pulse) : Tap := t.clock false p.tms p.tdi

/-- The port after a clock period. -/
def pulse (t : Tap) (p : Pulse) : Tap := (t.lowered p).clock true p.tms p.tdi

def pulses (t : Tap) (ps : List Pulse) : Tap := ps.foldl pulse t

/-- Whether each of some clock periods finds the port in the column of a scan. -/
def staysIn (path : ScanPath) (t : Tap) : List Pulse → Bool
  | [] => true
  | p :: rest => decide (t.state ∈ path.column) && staysIn path (t.pulse p) rest

/-- Data-in in those of some clock periods that find the port shifting. -/
def shiftedIn (path : ScanPath) (t : Tap) : List Pulse → List Bool
  | [] => []
  | p :: rest =>
    (if t.state = path.shiftState then [p.tdi] else []) ++ shiftedIn path (t.pulse p) rest

/-- The output in the low halves of those of some clock periods that find the port shifting. -/
def shiftedOut (path : ScanPath) (t : Tap) : List Pulse → List Bool
  | [] => []
  | p :: rest =>
    (if t.state = path.shiftState then [(t.lowered p).tdo] else []) ++
      shiftedOut path (t.pulse p) rest

theorem pulses_concat (t : Tap) (ps : List Pulse) (p : Pulse) :
    t.pulses (ps ++ [p]) = (t.pulses ps).pulse p := by
  simp only [pulses, List.foldl_append, List.foldl_cons, List.foldl_nil]

theorem staysIn_concat (path : ScanPath) (t : Tap) (ps : List Pulse) (p : Pulse) :
    t.staysIn path (ps ++ [p]) =
      (t.staysIn path ps && decide ((t.pulses ps).state ∈ path.column)) := by
  induction ps generalizing t with
  | nil =>
    simp only [List.nil_append, staysIn, Bool.and_true, Bool.true_and]
    rfl
  | cons first rest ih =>
    rw [List.cons_append, staysIn, ih, staysIn, Bool.and_assoc]
    rfl

theorem shiftedIn_concat (path : ScanPath) (t : Tap) (ps : List Pulse) (p : Pulse) :
    t.shiftedIn path (ps ++ [p]) = t.shiftedIn path ps ++
      if (t.pulses ps).state = path.shiftState then [p.tdi] else [] := by
  induction ps generalizing t with
  | nil =>
    simp only [List.nil_append, shiftedIn, List.append_nil]
    rfl
  | cons first rest ih =>
    rw [List.cons_append, shiftedIn, ih, shiftedIn, List.append_assoc]
    rfl

theorem shiftedOut_concat (path : ScanPath) (t : Tap) (ps : List Pulse) (p : Pulse) :
    t.shiftedOut path (ps ++ [p]) = t.shiftedOut path ps ++
      if (t.pulses ps).state = path.shiftState then [((t.pulses ps).lowered p).tdo] else [] := by
  induction ps generalizing t with
  | nil =>
    simp only [List.nil_append, shiftedOut, List.append_nil]
    rfl
  | cons first rest ih =>
    rw [List.cons_append, shiftedOut, ih, shiftedOut, List.append_assoc]
    rfl

/-! ### Shift registers -/

/-- A register of `n` bits, of which bit `i` is `bit i`, holds `bits`, lowest first. -/
structure Contents (n : Nat) (bit : Nat → Bool) (bits : List Bool) : Prop where
  pos : 0 < n
  fits : n ≤ 64
  low : (List.range n).map bit = bits
  above : ∀ i, n ≤ i → bit i = false

/-- A register that shifts puts its lowest bit out and takes a new one at the top. -/
theorem Contents.shifted {n : Nat} {before after : Nat → Bool} {bits : List Bool} {new : Bool}
    (h : Contents n before bits)
    (hafter : ∀ i, after i = (before (i + 1) || (new && decide (i = n - 1)))) :
    Contents n after (bits.tail ++ [new]) := by
  obtain ⟨hpos, hfits, rfl, habove⟩ := h
  refine ⟨hpos, hfits, ?_, fun i hi => ?_⟩
  · obtain ⟨m, rfl⟩ : ∃ m, n = m + 1 := ⟨n - 1, by omega⟩
    have htail : ((List.range (m + 1)).map before).tail =
        (List.range m).map fun i => before (i + 1) := by
      rw [List.range_succ_eq_map, List.map_cons, List.tail_cons, List.map_map]
      rfl
    rw [htail, List.range_succ, List.map_append]
    congr 1
    · refine List.map_congr_left fun i hi => ?_
      have hne : i ≠ m := Nat.ne_of_lt (List.mem_range.mp hi)
      simp [hafter, hne]
    · simp [hafter, habove]
  · have hne : i ≠ n - 1 := by omega
    rw [hafter, habove (i + 1) (Nat.le_succ_of_le hi)]
    simp [hne]

theorem getLsbD_one_shiftLeft {w top : Nat} (htop : top < w) (i : Nat) :
    (1#w <<< top).getLsbD i = decide (i = top) := by
  rw [BitVec.getLsbD_shiftLeft, BitVec.getLsbD_one]
  by_cases hi : i = top
  · subst hi
    simp
    omega
  · by_cases hlt : i < top
    · simp [hlt, hi]
    · have : i - top ≠ 0 := by omega
      simp [this, hi]

theorem getLsbD_shiftIn (register : UInt64) {top : Nat} (htop : top < 64) (bit : Bool) (i : Nat) :
    (shiftIn register top bit).toBitVec.getLsbD i =
      (register.toBitVec.getLsbD (i + 1) || (bit && decide (i = top))) := by
  have hright : (register >>> 1).toBitVec.getLsbD i = register.toBitVec.getLsbD (i + 1) := by
    show (register.toBitVec >>> 1).getLsbD i = _
    rw [BitVec.getLsbD_ushiftRight, Nat.add_comm]
  have hamount : (UInt64.ofNat top).toBitVec % 64 = BitVec.ofNat 64 top := by
    apply BitVec.eq_of_toNat_eq
    rw [BitVec.toNat_umod]
    simp
    omega
  have hone : 1#64 <<< BitVec.ofNat 64 top = 1#64 <<< top := by
    rw [BitVec.shiftLeft_eq', BitVec.toNat_ofNat, Nat.mod_eq_of_lt (by omega)]
  rw [shiftIn, UInt64.toBitVec_or, BitVec.getLsbD_or, hright, UInt64.toBitVec_shiftLeft, hamount]
  congr 1
  cases bit with
  | false => simp
  | true =>
    rw [Bool.true_and, ← getLsbD_one_shiftLeft htop i, ← hone]
    rfl

theorem getLsbD_instructionShifted (register : UInt8) (bit : Bool) (i : Nat) :
    ((register >>> 1) ||| ((if bit then (1 : UInt8) else 0) <<< 4)).toBitVec.getLsbD i =
      (register.toBitVec.getLsbD (i + 1) || (bit && decide (i = 4))) := by
  have hright : (register >>> 1).toBitVec.getLsbD i = register.toBitVec.getLsbD (i + 1) := by
    show (register.toBitVec >>> 1).getLsbD i = _
    rw [BitVec.getLsbD_ushiftRight, Nat.add_comm]
  rw [UInt8.toBitVec_or, BitVec.getLsbD_or, hright]
  congr 1
  cases bit with
  | false => simp
  | true =>
    rw [Bool.true_and, ← getLsbD_one_shiftLeft (by decide : 4 < 8) i]
    rfl

/-! ### The register of a scan -/

/-- The register of a scan holds these bits. -/
def Holds (path : ScanPath) (t : Tap) (bits : List Bool) : Prop :=
  match path with
  | .data => Contents t.dataBits t.dataShift.toBitVec.getLsbD bits
  | .instruction => Contents instructionBits t.instructionShift.toBitVec.getLsbD bits

variable {path : ScanPath} {t : Tap} {bits : List Bool} {p : Pulse}

theorem lowered_eq (t : Tap) (p : Pulse) :
    t.lowered p = { (if t.lastTck then t.fall else t) with lastTck := false } := by
  cases h : t.lastTck <;> simp [lowered, clock, h]

theorem pulse_eq (t : Tap) (p : Pulse) :
    t.pulse p = { (t.lowered p).rise p.tms p.tdi with lastTck := true } := by
  have hlow : (t.lowered p).lastTck = false := rfl
  simp [pulse, clock, hlow]

/-- A falling clock changes the output and, in an update, the instruction. -/
theorem lowered_frame (t : Tap) (p : Pulse) :
    ∃ tdo instruction, t.lowered p =
        { t with tdo := tdo, instruction := instruction, lastTck := false } ∧
      (t.state ≠ .updateIr → instruction = t.instruction) := by
  rw [lowered_eq]
  cases t.lastTck with
  | false => exact ⟨t.tdo, t.instruction, rfl, fun _ => rfl⟩
  | true =>
    rw [if_pos rfl, fall]
    split
    · exact ⟨_, t.instruction, rfl, fun _ => rfl⟩
    · exact ⟨_, t.instruction, rfl, fun _ => rfl⟩
    · rename_i hupdate
      exact ⟨_, t.instructionShift, rfl, fun h => absurd hupdate h⟩
    · exact ⟨_, t.instruction, rfl, fun _ => rfl⟩

theorem state_pulse (t : Tap) (p : Pulse) : (t.pulse p).state = t.state.next p.tms := by
  obtain ⟨tdo, instruction, hlow, -⟩ := t.lowered_frame p
  rw [pulse_eq, hlow]
  rfl

theorem lastTck_pulse (t : Tap) (p : Pulse) : (t.pulse p).lastTck = true := rfl

theorem state_lowered (t : Tap) (p : Pulse) : (t.lowered p).state = t.state := by
  obtain ⟨tdo, instruction, hlow, -⟩ := t.lowered_frame p
  rw [hlow]

theorem Holds.lowered (h : t.Holds path bits) (p : Pulse) : (t.lowered p).Holds path bits := by
  obtain ⟨tdo, instruction, hlow, -⟩ := t.lowered_frame p
  rw [hlow]
  cases path <;> exact h

/-- Only the capture goes by the instruction, which a falling clock does not change then. -/
theorem captured_lowered (h : t.state = path.captureState) (p : Pulse) :
    path.captured (t.lowered p) = path.captured t := by
  obtain ⟨tdo, instruction, hlow, hsame⟩ := t.lowered_frame p
  have hinstruction : instruction = t.instruction := by
    apply hsame
    rw [h]
    cases path <;> decide
  rw [hlow, hinstruction]
  cases path <;> rfl

theorem contents_one : Contents instructionBits (1 : UInt8).toBitVec.getLsbD
    [true, false, false, false, false] := by
  refine ⟨by decide, by decide, by decide, fun i hi => ?_⟩
  show (1#8).getLsbD i = false
  simp only [instructionBits] at hi
  rw [BitVec.getLsbD_one]
  simp
  omega

theorem contents_idcode (idcode : UInt32) : Contents 32 idcode.toUInt64.toBitVec.getLsbD
    ((List.range 32).map idcode.toBitVec.getLsbD) := by
  have hbit : ∀ i, idcode.toUInt64.toBitVec.getLsbD i =
      (decide (i < 64) && idcode.toBitVec.getLsbD i) := by
    intro i
    rw [UInt32.toBitVec_toUInt64, BitVec.getLsbD_setWidth]
  refine ⟨by decide, by decide, List.map_congr_left fun i hi => ?_, fun i hi => ?_⟩
  · have hlt : i < 64 := Nat.lt_trans (List.mem_range.mp hi) (by decide)
    rw [hbit, decide_eq_true hlt, Bool.true_and]
  · rw [hbit, BitVec.getLsbD_of_ge _ _ hi, Bool.and_false]

theorem contents_zero : Contents 1 (0 : UInt64).toBitVec.getLsbD [false] :=
  ⟨by decide, by decide, by decide, fun i _ => BitVec.getLsbD_zero⟩

/-- A capture loads the register. -/
theorem holds_shift_of_capture (h : t.state = path.captureState) (tdi : Bool) :
    (t.shift tdi).Holds path (path.captured t) := by
  cases path with
  | instruction =>
    have hstate : t.state = .captureIr := h
    simp only [shift, hstate]
    exact contents_one
  | data =>
    have hstate : t.state = .captureDr := h
    simp only [shift, hstate, ScanPath.captured]
    split
    · exact contents_idcode t.idcode
    · exact contents_zero

/-- In the shift state the register puts out its lowest bit and takes data-in at the top. -/
theorem Holds.shift (h : t.Holds path bits) (hstate : t.state = path.shiftState) (tdi : Bool) :
    (t.shift tdi).Holds path (bits.tail ++ [tdi]) := by
  cases path with
  | data =>
    have hstate : t.state = .shiftDr := hstate
    have hcontents : Contents t.dataBits t.dataShift.toBitVec.getLsbD bits := h
    have htop : t.dataBits - 1 < 64 := by
      have hfits := hcontents.fits
      have hpos := hcontents.pos
      omega
    simp only [Tap.shift, hstate]
    exact hcontents.shifted (getLsbD_shiftIn t.dataShift htop tdi)
  | instruction =>
    have hstate : t.state = .shiftIr := hstate
    simp only [Tap.shift, hstate]
    exact Contents.shifted h (getLsbD_instructionShifted t.instructionShift tdi)

/-- In the other states of a scan the registers stay as they are. -/
theorem shift_of_pausing (hcolumn : t.state ∈ path.column) (hcapture : t.state ≠ path.captureState)
    (hshift : t.state ≠ path.shiftState) (tdi : Bool) : t.shift tdi = t := by
  cases path <;>
    simp only [ScanPath.column, ScanPath.captureState, ScanPath.shiftState, List.mem_cons,
      List.not_mem_nil, or_false] at hcolumn hcapture hshift <;>
    rcases hcolumn with hstate | hstate | hstate | hstate | hstate | hstate <;>
    simp_all [Tap.shift]

/-- The registers after a clock period are those that the rising clock shifts. -/
theorem holds_pulse_iff (t : Tap) (p : Pulse) (bits : List Bool) :
    (t.pulse p).Holds path bits ↔ ((t.lowered p).shift p.tdi).Holds path bits := by
  rw [pulse_eq]
  cases path <;> rfl

theorem holds_capture (h : t.state = path.captureState) (p : Pulse) :
    (t.pulse p).Holds path (path.captured t) := by
  rw [holds_pulse_iff, ← captured_lowered h p]
  exact holds_shift_of_capture ((t.state_lowered p).trans h) p.tdi

theorem Holds.pulse (h : t.Holds path bits) (hcolumn : t.state ∈ path.column)
    (hcapture : t.state ≠ path.captureState) (p : Pulse) :
    (t.pulse p).Holds path (bits.tail ++ [p.tdi]) ∧ t.state = path.shiftState ∨
      (t.pulse p).Holds path bits ∧ t.state ≠ path.shiftState := by
  have hlow := h.lowered p
  have hstate := t.state_lowered p
  rw [holds_pulse_iff, holds_pulse_iff]
  by_cases hshift : t.state = path.shiftState
  · exact .inl ⟨hlow.shift (hstate.trans hshift) p.tdi, hshift⟩
  · refine .inr ⟨?_, hshift⟩
    rw [shift_of_pausing (hstate ▸ hcolumn) (hstate ▸ hcapture) (hstate ▸ hshift)]
    exact hlow

theorem Contents.head?_eq {n : Nat} {bit : Nat → Bool} (h : Contents n bit bits) :
    bits.head? = some (bit 0) := by
  obtain ⟨m, rfl⟩ : ∃ m, n = m + 1 := ⟨n - 1, by have := h.pos; omega⟩
  rw [← h.low, List.range_succ_eq_map]
  rfl

/-- A port in the shift state puts out the lowest bit of the register when the clock falls. -/
theorem Holds.head?_eq (h : t.Holds path bits) (hstate : t.state = path.shiftState)
    (hlast : t.lastTck = true) (p : Pulse) : bits.head? = some (t.lowered p).tdo := by
  cases path with
  | data =>
    have hstate : t.state = .shiftDr := hstate
    rw [Contents.head?_eq h, ← Word.and_one_bne_zero (by decide), lowered_eq, if_pos hlast, fall,
      hstate, Option.some.injEq, Bool.eq_iff_iff, bne_iff_ne, bne_iff_ne, ne_eq, ne_eq,
      ← UInt64.toBitVec_inj]
    rfl
  | instruction =>
    have hstate : t.state = .shiftIr := hstate
    rw [Contents.head?_eq h, ← Word.and_one_bne_zero (by decide), lowered_eq, if_pos hlast, fall,
      hstate, Option.some.injEq, Bool.eq_iff_iff, bne_iff_ne, bne_iff_ne, ne_eq, ne_eq,
      ← UInt8.toBitVec_inj]
    rfl

/-! ### Walks -/

theorem next_ne_captureState {s : TapState} (h : s ∈ path.column) (tms : Bool) :
    s.next tms ≠ path.captureState := by
  cases path <;> cases s <;> cases tms <;>
    simp_all [ScanPath.column, ScanPath.captureState, TapState.next]

/-- After the capture of a scan the register holds what was captured and has not come out yet,
followed by what has gone in. -/
structure Scanned (path : ScanPath) (t : Tap) (ps : List Pulse) : Prop where
  high : (t.pulses ps).lastTck = true
  captured : (t.pulses ps).state ≠ path.captureState
  holds : (t.pulses ps).Holds path
    ((path.captured t ++ t.shiftedIn path ps).drop (t.shiftedIn path ps).length)

theorem length_captured_pos (path : ScanPath) (t : Tap) : 0 < (path.captured t).length := by
  cases path with
  | instruction => exact Nat.zero_lt_succ 4
  | data =>
    rw [ScanPath.captured]
    split <;> simp

theorem Scanned.pulse {ps : List Pulse} (h : Scanned path t ps)
    (hcolumn : (t.pulses ps).state ∈ path.column) (p : Pulse) : Scanned path t (ps ++ [p]) := by
  refine ⟨?_, ?_, ?_⟩
  · rw [pulses_concat, lastTck_pulse]
  · rw [pulses_concat, state_pulse]
    exact next_ne_captureState hcolumn p.tms
  · rw [pulses_concat, shiftedIn_concat]
    rcases h.holds.pulse hcolumn h.captured p with ⟨hholds, hshift⟩ | ⟨hholds, hshift⟩
    · rw [if_pos hshift, ← List.append_assoc, List.length_append, List.length_singleton]
      have hlen : (t.shiftedIn path ps).length + 1 ≤
          (path.captured t ++ t.shiftedIn path ps).length := by
        have := length_captured_pos path t
        rw [List.length_append]
        omega
      rw [List.drop_append_of_le_length hlen, ← List.tail_drop]
      exact hholds
    · rw [if_neg hshift, List.append_nil]
      exact hholds

theorem scanned_of_staysIn {ps : List Pulse} (hstart : t.state = path.captureState)
    (hstays : t.staysIn path ps = true) (hne : ps ≠ []) : Scanned path t ps := by
  induction ps using List.reverseRecOn with
  | nil => exact absurd rfl hne
  | append_singleton ps p ih =>
    rw [staysIn_concat, Bool.and_eq_true, decide_eq_true_eq] at hstays
    obtain ⟨hstays, hcolumn⟩ := hstays
    by_cases hnil : ps = []
    · subst hnil
      refine ⟨rfl, ?_, ?_⟩
      · rw [List.nil_append]
        show (t.pulse p).state ≠ _
        rw [state_pulse]
        exact next_ne_captureState hcolumn p.tms
      · have hnone : t.shiftedIn path [p] = [] := by
          have hne : t.state ≠ path.shiftState := by
            rw [hstart]
            cases path <;> decide
          simp [shiftedIn, hne]
        rw [List.nil_append, hnone, List.append_nil, List.length_nil, List.drop_zero]
        exact holds_capture hstart p
    · exact (ih hstays hnil).pulse hcolumn p

theorem length_shiftedOut (path : ScanPath) (t : Tap) (ps : List Pulse) :
    (t.shiftedOut path ps).length = (t.shiftedIn path ps).length := by
  induction ps generalizing t with
  | nil => rfl
  | cons p rest ih =>
    rw [shiftedOut, shiftedIn, List.length_append, List.length_append, ih]
    split <;> rfl

/-- The next bit to come out of a scan is the first that has not come out of what was captured and
what has gone in. -/
theorem next_out {ps : List Pulse} (hstart : t.state = path.captureState)
    (hstays : t.staysIn path ps = true) (hshift : (t.pulses ps).state = path.shiftState)
    (p : Pulse) :
    (path.captured t ++ t.shiftedIn path ps)[(t.shiftedIn path ps).length]? =
      some ((t.pulses ps).lowered p).tdo := by
  have hne : ps ≠ [] := by
    rintro rfl
    have hboth : path.captureState = path.shiftState := hstart.symm.trans hshift
    revert hboth
    cases path <;> decide
  have hscanned := scanned_of_staysIn hstart hstays hne
  rw [← hscanned.holds.head?_eq hshift hscanned.high p, List.head?_drop]

/-- The clock periods of a scan start in its capture state and find the port in its column.  In
those that find it shifting, the outputs are the captured bits and then data-in of the periods
before, one for one.  If an instruction scan has come to its update, the next falling clock brings
the last five of these bits into force as the instruction, lowest first. -/
theorem scan_shifts_through {ps : List Pulse} (hstart : t.state = path.captureState)
    (hstays : t.staysIn path ps = true) :
    (t.shiftedOut path ps).length = (t.shiftedIn path ps).length ∧
    (∀ k < (t.shiftedIn path ps).length,
      (t.shiftedOut path ps)[k]? = (path.captured t ++ (t.shiftedIn path ps).take k)[k]?) ∧
    (path = .instruction → (t.pulses ps).state = .updateIr → ∀ tms tdi,
      let through := path.captured t ++ t.shiftedIn path ps
      (List.range 8).map ((t.pulses ps).clock false tms tdi).instruction.toBitVec.getLsbD =
        through.drop (through.length - 5) ++ [false, false, false]) := by
  refine ⟨length_shiftedOut path t ps, ?_, ?_⟩
  · induction ps using List.reverseRecOn with
    | nil => exact fun k hk => absurd hk (Nat.not_lt_zero k)
    | append_singleton ps p ih =>
      rw [staysIn_concat, Bool.and_eq_true] at hstays
      obtain ⟨hstays, -⟩ := hstays
      rw [shiftedIn_concat, shiftedOut_concat]
      by_cases hshift : (t.pulses ps).state = path.shiftState
      · rw [if_pos hshift, if_pos hshift, List.length_append, List.length_singleton]
        intro k hk
        have hlen := length_shiftedOut path t ps
        rcases Nat.lt_or_eq_of_le (Nat.le_of_lt_succ hk) with hlt | rfl
        · rw [List.getElem?_append_left (hlen ▸ hlt),
            List.take_append_of_le_length (Nat.le_of_lt hlt)]
          exact ih hstays k hlt
        · rw [← hlen, List.getElem?_concat_length, hlen, List.take_left, next_out hstart hstays hshift]
      · rw [if_neg hshift, if_neg hshift, List.append_nil, List.append_nil]
        exact ih hstays
  · rintro rfl hupdate tms tdi through
    have hne : ps ≠ [] := by
      rintro rfl
      have hboth : ScanPath.instruction.captureState = .updateIr := hstart.symm.trans hupdate
      revert hboth
      decide
    have hscanned := scanned_of_staysIn hstart hstays hne
    have hcontents : Contents instructionBits (t.pulses ps).instructionShift.toBitVec.getLsbD
        (through.drop (t.shiftedIn .instruction ps).length) := hscanned.holds
    have hforce : ((t.pulses ps).clock false tms tdi).instruction =
        (t.pulses ps).instructionShift := by
      show ((t.pulses ps).lowered ⟨tms, tdi⟩).instruction = _
      rw [lowered_eq, if_pos hscanned.high, fall, hupdate]
    have hlen : through.length - 5 = (t.shiftedIn .instruction ps).length := by
      simp only [through, List.length_append, ScanPath.captured, List.length_cons, List.length_nil]
      omega
    have hrange : List.range 8 = List.range instructionBits ++ [5, 6, 7] := by decide
    rw [hforce, hlen, ← hcontents.low, hrange, List.map_append]
    simp only [List.map_cons, List.map_nil, hcontents.above 5 (by decide),
      hcontents.above 6 (by decide), hcontents.above 7 (by decide)]

/-- A scan of five ones into the instruction register, with a pause after the second. -/
def pausedScan : List Pulse :=
  [⟨false, false⟩, ⟨false, true⟩, ⟨true, true⟩, ⟨false, false⟩, ⟨true, false⟩, ⟨false, false⟩,
    ⟨false, true⟩, ⟨false, true⟩, ⟨true, true⟩, ⟨true, false⟩]

theorem scan_shifts_through_pausedScan :
    let t := { powerUp 0x149511C3 with state := .captureIr }
    (t.state = ScanPath.instruction.captureState ∧ t.staysIn .instruction pausedScan = true) ∧
      (t.shiftedOut .instruction pausedScan)[0]? = some true ∧
      (List.range 8).map ((t.pulses pausedScan).clock false true false).instruction.toBitVec.getLsbD =
        [true, true, true, true, true, false, false, false] := by
  intro t
  have hstays : t.staysIn .instruction pausedScan = true := by decide
  have hin : t.shiftedIn .instruction pausedScan = [true, true, true, true, true] := by decide
  have hstart : t.state = ScanPath.instruction.captureState := rfl
  obtain ⟨-, hout, hupdate⟩ := scan_shifts_through hstart hstays
  refine ⟨⟨hstart, hstays⟩, ?_, ?_⟩
  · rw [hout 0 (by rw [hin]; decide)]
    rfl
  · rw [hupdate rfl (by decide) true false, hin]
    rfl

end Tap

end PinBench.Model
