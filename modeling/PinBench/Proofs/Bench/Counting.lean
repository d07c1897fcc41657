import Mathlib.Algebra.Group.Nat.Defs
import PinBench.Proofs.Bench.Inputs
import PinBench.Proofs.Pins.Access

/-! How often the counter counts.  The deadlines are the multiples of the interval, whatever the
time step, and an iteration meets at most one of them.  So if a step is shorter than the interval
the counter has met all the deadlines that have passed, and if not it counts in every iteration and
may lag behind (`countsBefore_eq`).  Its value is the number of counts, cut to its bits, and the
GPIO input word shows just that (`counts_in_closed_form`). -/

namespace PinBench

namespace Gpio

theorem Allocation.Shows.and_mask {a : Allocation} {mask value w : Word} {levels : List Bool}
    (h : a.Shows mask value levels w) : w &&& mask = w := by
  obtain ⟨field, -, rfl⟩ := h
  rw [BitVec.and_assoc, BitVec.and_self]

/-- The counter's bits of a word that shows its value, if the model has all the inputs. -/
theorem Allocation.Shows.field {a : Allocation} {value w : Word} {levels : List Bool} {width : Nat}
    (h : a.Shows (Word.lowMask width) value levels w) (hfits : a.Fits value)
    (hwide : inputWidth ≤ width) :
    w.toNat >>> (a.rangeOf .stimulus).lsb % 2 ^ (a.rangeOf .stimulus).width = value.toNat := by
  refine Nat.eq_of_testBit_eq fun i => ?_
  rw [Nat.testBit_mod_two_pow, Nat.testBit_shiftRight, BitVec.testBit_toNat, BitVec.testBit_toNat]
  by_cases hi : i < (a.rangeOf .stimulus).width
  · have howns : (a.rangeOf .stimulus).Owns ((a.rangeOf .stimulus).lsb + i) :=
      ⟨Nat.le_add_right _ _, Nat.add_lt_add_left hi _⟩
    have hinside := a.inside .stimulus
    simp only [InputRange.Inside, inputWidth] at hinside hwide
    have hword : (a.rangeOf .stimulus).lsb + i < 64 := by omega
    have hmask : (a.rangeOf .stimulus).lsb + i < width := by omega
    rw [(shows_iff hfits).mp h _ hword, bitAt_of_stimulus howns, Word.getLsbD_lowMask,
      Nat.add_sub_cancel_left, decide_eq_true hi, decide_eq_true hword, decide_eq_true hmask]
    simp
  · rw [decide_eq_false hi, hfits i (Nat.le_of_not_lt hi), Bool.false_and]

/-! ### The counter after some counts -/

namespace Counter

/-- The counter after so many counts. -/
def reckoned (range : InputRange) (interval counts : Nat) : Counter :=
  { range, interval
    nextAt := min ((counts + 1) * interval) Time.latest
    value := BitVec.ofNat 64 counts &&& Word.lowMask range.width }

variable {range : InputRange} {interval : Nat} (counts : Nat)

theorem reckoned_zero (h : interval ≤ Time.latest) :
    reckoned range interval 0 = start range interval := by
  have hnext : min ((0 + 1) * interval) Time.latest = interval := by
    rw [Nat.zero_add, Nat.one_mul]
    exact Nat.min_eq_left h
  rw [reckoned, hnext, start]
  congr 1
  exact BitVec.zero_and

theorem toNat_value_reckoned (h : range.width ≤ 64) :
    (reckoned range interval counts).value.toNat = counts % 2 ^ range.width := by
  rw [reckoned, Word.toNat_and_lowMask, BitVec.toNat_ofNat,
    Nat.mod_mod_of_dvd _ (Nat.pow_dvd_pow 2 h)]

theorem count_reckoned (h : range.width ≤ 64) :
    (reckoned range interval counts).count = reckoned range interval (counts + 1) := by
  have hnext : Time.after (min ((counts + 1) * interval) Time.latest) interval =
      min ((counts + 1 + 1) * interval) Time.latest := by
    rw [Nat.succ_mul (counts + 1)]
    exact Time.after_min _ _
  have hvalue : ((reckoned range interval counts).value + 1) &&& Word.lowMask range.width =
      (reckoned range interval (counts + 1)).value := by
    apply BitVec.eq_of_toNat_eq
    rw [toNat_value_reckoned _ h, Word.toNat_and_lowMask, BitVec.toNat_add,
      toNat_value_reckoned _ h, Nat.mod_mod_of_dvd _ (Nat.pow_dvd_pow 2 h)]
    exact Nat.mod_add_mod _ _ _
  have hcount : (reckoned range interval counts).count =
      { range, interval
        nextAt := Time.after (min ((counts + 1) * interval) Time.latest) interval
        value := ((reckoned range interval counts).value + 1) &&& Word.lowMask range.width } := rfl
  rw [hcount, hnext, hvalue]
  rfl

theorem due_reckoned {now : Nat} : (reckoned range interval counts).due now = true ↔
    0 < interval ∧ min ((counts + 1) * interval) Time.latest ≤ now := by
  rw [due, Bool.and_eq_true, bne_iff_ne, decide_eq_true_iff, Nat.pos_iff_ne_zero]
  rfl

end Counter

end Gpio

/-- By the standard assignment every signal serves one role. -/
theorem Fixture.alone_standard (m : Model.EchoSoc) (role : Role) :
    (standard m).Alone role role.index.val := by
  intro other hne _ binding hother hsignal
  rw [wired_standard, Option.some.injEq] at hother
  subst hother
  exact hne (Role.index_inj (Fin.ext hsignal))

/-! ### Multiples of an interval -/

/-- The number of intervals that have passed after one step more. -/
theorem div_succ_mul {step interval : Nat} (h : step < interval) (n : Nat) :
    (n + 1) * step / interval = n * step / interval +
      if (n * step / interval + 1) * interval ≤ (n + 1) * step then 1 else 0 := by
  have hpos : 0 < interval := Nat.zero_lt_of_lt h
  have hlow : n * step / interval * interval ≤ n * step := Nat.div_mul_le_self _ _
  have hhigh : n * step < n * step / interval * interval + interval := Nat.lt_div_mul_add hpos
  rw [Nat.succ_mul n, Nat.succ_mul]
  split
  · rename_i hnext
    refine Nat.div_eq_of_lt_le ?_ ?_
    · rw [Nat.succ_mul]
      exact hnext
    · rw [Nat.succ_mul, Nat.succ_mul]
      omega
  · rename_i hnext
    rw [Nat.add_zero]
    refine Nat.div_eq_of_lt_le ?_ ?_
    · omega
    · rw [Nat.succ_mul]
      omega

namespace Bench

variable {M : Type} [HardwareModel M] {around : Surroundings} {config : Config}
  {allocation : Gpio.Allocation} {f : Fixture M} {b c : Bench M} {schedule : Schedule} {n : Nat}
  {range : Gpio.InputRange}

/-! ### Counts along a run -/

/-- Whether the counter counts at the end of iteration `n`. -/
def countsAt (schedule : Schedule) (b : Bench M) (n : Nat) : Bool :=
  (course schedule b n).counter.any (·.due (course schedule b (n + 1)).time.now)

/-- How often the counter has counted before iteration `n`. -/
def countsBefore (schedule : Schedule) (b : Bench M) (n : Nat) : Nat :=
  (List.range n).countP (countsAt schedule b)

theorem countsBefore_succ (schedule : Schedule) (b : Bench M) (n : Nat) :
    countsBefore schedule b (n + 1) =
      countsBefore schedule b n + if countsAt schedule b n then 1 else 0 := by
  rw [countsBefore, List.range_succ, List.countP_append, List.countP_singleton]
  rfl

theorem midway_counter (b : Bench M) (arrivals : Arrivals) :
    (b.midway arrivals).1.counter = b.counter := by
  obtain ⟨_, _, _, _, _, hexchange⟩ := exchange_frame (b.settled arrivals)
  obtain ⟨_, _, _, _, _, _, hsettled⟩ := settled_eq b arrivals
  show (b.settled arrivals).exchange.1.counter = _
  rw [hexchange, hsettled]

theorem advance_counter (b : Bench M) : b.advance.counter =
    b.counter.map fun k => if k.due b.advance.time.now then k.count else k := by
  cases hcounter : b.counter with
  | none => simp only [advance, hcounter, Option.map_none]
  | some k =>
    simp only [advance, hcounter, Gpio.Counter.tick, Option.map_some]
    split <;> rfl

/-- What an iteration does to the counter. -/
theorem course_counter_succ (schedule : Schedule) (b : Bench M) (n : Nat) :
    (course schedule b (n + 1)).counter =
      (course schedule b n).counter.map fun k => if countsAt schedule b n then k.count else k := by
  have hcounter : (course schedule b (n + 1)).counter = (course schedule b n).counter.map fun k =>
      if k.due (course schedule b (n + 1)).time.now then k.count else k := by
    rw [course, advance_counter, midway_counter]
  rw [hcounter]
  cases hk : (course schedule b n).counter with
  | none => rfl
  | some k => rw [Option.map_some, Option.map_some, countsAt, hk, Option.any_some]

section Reckoned

variable {interval : Nat} (hstart : b.counter = some (.start range interval))
  (hinterval : interval ≤ Time.latest) (hwidth : range.width ≤ 64)
include hstart hinterval hwidth

/-- The counter along a run follows from the number of counts. -/
theorem course_counter (schedule : Schedule) (n : Nat) : (course schedule b n).counter =
    some (.reckoned range interval (countsBefore schedule b n)) := by
  induction n with
  | zero => exact hstart.trans (congrArg some (Gpio.Counter.reckoned_zero hinterval).symm)
  | succ n ih =>
    rw [course_counter_succ, ih, Option.map_some, countsBefore_succ]
    cases countsAt schedule b n with
    | false => rfl
    | true => rw [if_pos rfl, if_pos rfl, Gpio.Counter.count_reckoned _ hwidth]

variable (htime : b.time = .start b.config.clock.startsHigh)
include htime

theorem countsAt_iff (schedule : Schedule) (n : Nat) : countsAt schedule b n = true ↔
    0 < interval ∧ min ((countsBefore schedule b n + 1) * interval) Time.latest ≤
      min ((n + 1) * b.config.timeStep) Time.latest := by
  rw [countsAt, course_counter hstart hinterval hwidth, Option.any_some,
    Gpio.Counter.due_reckoned, course_time htime]
  rfl

theorem countsBefore_zero (hzero : interval = 0) (schedule : Schedule) (n : Nat) :
    countsBefore schedule b n = 0 := by
  rw [countsBefore, List.countP_eq_zero]
  intro m _ hcounts
  have hpos := ((countsAt_iff hstart hinterval hwidth htime schedule m).mp hcounts).1
  omega

/-- If a step takes as long as the interval or longer, every iteration counts. -/
theorem countsBefore_of_le (hpos : 0 < interval) (hstep : interval ≤ b.config.timeStep)
    (schedule : Schedule) (n : Nat) : countsBefore schedule b n = n := by
  induction n with
  | zero => rfl
  | succ n ih =>
    have hmeets : (n + 1) * interval ≤ (n + 1) * b.config.timeStep := Nat.mul_le_mul_left _ hstep
    have hcounts : countsAt schedule b n = true := by
      rw [countsAt_iff hstart hinterval hwidth htime, ih]
      exact ⟨hpos, by omega⟩
    rw [countsBefore_succ, ih, if_pos hcounts]

/-- If a step is shorter, the counter counts once for every interval that has passed. -/
theorem countsBefore_of_lt (hstep : b.config.timeStep < interval) (schedule : Schedule) (n : Nat)
    (hclock : n * b.config.timeStep < Time.latest) :
    countsBefore schedule b n = n * b.config.timeStep / interval := by
  induction n with
  | zero => rw [Nat.zero_mul, Nat.zero_div]; rfl
  | succ n ih =>
    have hbefore : n * b.config.timeStep < Time.latest :=
      Nat.lt_of_le_of_lt (Nat.mul_le_mul_right _ (Nat.le_succ n)) hclock
    have hcounts : countsAt schedule b n = true ↔
        (n * b.config.timeStep / interval + 1) * interval ≤ (n + 1) * b.config.timeStep := by
      rw [countsAt_iff hstart hinterval hwidth htime, ih hbefore]
      omega
    rw [countsBefore_succ, ih hbefore, div_succ_mul hstep]
    simp only [hcounts]

/-- The number of counts after `n` iterations, as long as the clock has not stopped or every
iteration counts anyway. -/
theorem countsBefore_eq (hpos : 0 < interval) (schedule : Schedule) (n : Nat)
    (hclock : interval ≤ b.config.timeStep ∨ n * b.config.timeStep < Time.latest) :
    countsBefore schedule b n = min n (n * b.config.timeStep / interval) := by
  by_cases hstep : interval ≤ b.config.timeStep
  · have hall : n ≤ n * b.config.timeStep / interval := by
      rw [Nat.le_div_iff_mul_le hpos]
      exact Nat.mul_le_mul_left n hstep
    rw [countsBefore_of_le hstart hinterval hwidth htime hpos hstep, Nat.min_eq_left hall]
  · have hshort : b.config.timeStep < interval := Nat.lt_of_not_le hstep
    have hsome : n * b.config.timeStep / interval ≤ n := by
      apply Nat.div_le_of_le_mul
      rw [Nat.mul_comm interval]
      exact Nat.mul_le_mul_left n (Nat.le_of_lt hshort)
    rw [countsBefore_of_lt hstart hinterval hwidth htime hshort schedule n
      (hclock.resolve_left hstep), Nat.min_eq_right hsome]

end Reckoned

/-! ### Whole runs -/

omit [HardwareModel M] in
theorem startCounter_eq (henabled : config.stimulus.enabled = true)
    (hrange : allocation.range? .stimulus = some range) (hbound : f.bound .gpioIn = true) :
    startCounter config allocation f = some (.start range config.stimulus.interval.toNat) := by
  rw [startCounter, henabled, hbound, hrange]
  rfl

/-- The counter in closed form.  After `n` iterations it has counted once for every interval that
has passed, but at most once in each iteration, and never if the interval is zero.  It counts next
when one interval more has passed.  Its value is the number of counts, cut to its bits, and its bits
of the input word show this value. -/
theorem counts_in_closed_form {width : Nat} {id : SignalId}
    (h : start around config allocation f = .ok b) (henabled : config.stimulus.enabled = true)
    (hrange : allocation.range? .stimulus = some range)
    (hbinding : f.binding? .gpioIn = some ⟨id, Word.lowMask width⟩)
    (hwide : Gpio.inputWidth ≤ width) (halone : f.Alone .gpioIn id)
    (hkeeps : HardwareModel.Keeps f.model id (Word.lowMask width)) (schedule : Schedule) (n : Nat)
    (c : Bench M) (hc : Reaches schedule b n c) :
    let interval := config.stimulus.interval.toNat
    let counts := countsBefore schedule b n
    (interval = 0 → counts = 0) ∧
    (0 < interval → interval ≤ config.timeStep ∨ n * config.timeStep < Time.latest →
      counts = min n (n * config.timeStep / interval)) ∧
    (∃ k, c.counter = some k ∧ k.nextAt = min ((counts + 1) * interval) Time.latest ∧
      k.value.toNat = counts % 2 ^ range.width) ∧
    (c.fixture.read .gpioIn).toNat >>> range.lsb % 2 ^ range.width = counts % 2 ^ range.width := by
  obtain ⟨rfl, -⟩ := reaches_iff.mp hc
  obtain ⟨_, _, _, _, -, -, -, -, hb⟩ := eq_of_start h
  have hconfig : b.config = config := by rw [hb]
  have htime : b.time = .start b.config.clock.startsHigh := by rw [hb]
  have hbound : f.bound .gpioIn = true := by rw [Fixture.bound, hbinding]; rfl
  have hstart : b.counter = some (.start range config.stimulus.interval.toNat) := by
    rw [hb]
    exact startCounter_eq henabled hrange hbound
  have hinterval : config.stimulus.interval.toNat ≤ Time.latest :=
    Nat.le_of_lt_succ config.stimulus.interval.toNat_lt_size
  have hown : allocation.rangeOf .stimulus = range := by
    rw [Gpio.Allocation.rangeOf, hrange, Option.getD_some]
  have hwidth : range.width ≤ 64 := by
    have hinside := allocation.inside .stimulus
    simp only [hown, Gpio.InputRange.Inside, Gpio.inputWidth] at hinside
    omega
  have hcounter := course_counter hstart hinterval hwidth schedule n
  have hvalue : (Gpio.Counter.reckoned range config.stimulus.interval.toNat
      (countsBefore schedule b n)).value.toNat = countsBefore schedule b n % 2 ^ range.width :=
    Gpio.Counter.toNat_value_reckoned _ hwidth
  have hshared := shared_course h ⟨hbinding, halone, hkeeps⟩ schedule n
  have hcounted : (course schedule b n).counted.toNat =
      countsBefore schedule b n % 2 ^ range.width := by
    rw [counted, hcounter]
    exact hvalue
  refine ⟨fun hzero => ?_, fun hpos hclock => ?_, ⟨_, hcounter, rfl, hvalue⟩, ?_⟩
  · exact countsBefore_zero hstart hinterval hwidth htime hzero schedule n
  · have hcounts := countsBefore_eq hstart hinterval hwidth htime hpos schedule n
    rw [hconfig] at hcounts
    exact hcounts hclock
  · have hfield := hshared.shows.field hshared.fits hwide
    have hread : (course schedule b n).fixture.read .gpioIn =
        (course schedule b n).fixture.word id := by
      simp only [Fixture.read, hshared.port.binding]
      exact hshared.shows.and_mask
    rw [hread, ← hcounted, ← hfield, hown]

/-- A counter with one and a half time steps to an interval. -/
def stimulated : Config := { Config.standard with stimulus := ⟨true, 15⟩ }

/-- Two bits for the counter and none for the observer. -/
def narrow : Gpio.Allocation := ⟨[⟨.stimulus, 3, 2⟩], by decide⟩

/-- Six intervals of 15 ns pass in nine steps of 10 ns, and two bits show six as two. -/
theorem counts_in_closed_form_nineSteps :
    ∃ b c, start ⟨fun _ _ => true, true, true⟩ stimulated narrow
        (Fixture.standard .standard) = .ok b ∧
      narrow.range? .stimulus = some ⟨.stimulus, 3, 2⟩ ∧
      (Fixture.standard .standard).binding? .gpioIn = some ⟨4, Word.lowMask 32⟩ ∧
      (Fixture.standard .standard).Alone .gpioIn 4 ∧
      HardwareModel.Keeps (Fixture.standard .standard).model 4 (Word.lowMask 32) ∧
      Reaches quiet b 9 c ∧ countsBefore quiet b 9 = 6 ∧
      (∃ k, c.counter = some k ∧ k.nextAt = 105 ∧ k.value.toNat = 2) ∧
      (c.fixture.read .gpioIn).toNat >>> 3 % 2 ^ 2 = 2 := by
  have hrun : ((start ⟨fun _ _ => true, true, true⟩ stimulated narrow
      (Fixture.standard Model.EchoSoc.standard)).toOption.map fun b =>
        (List.range 9).map (causeAt? quiet b)) = some (List.replicate 9 none) := by
    decide +kernel
  obtain ⟨b, hb, hcauses⟩ := Option.map_eq_some_iff.mp hrun
  have hstart := eq_ok_of_toOption hb
  have hrange : narrow.range? .stimulus = some ⟨.stimulus, 3, 2⟩ := rfl
  have hbinding : (Fixture.standard .standard).binding? .gpioIn = some ⟨4, Word.lowMask 32⟩ := rfl
  have halone := Fixture.alone_standard .standard .gpioIn
  have hkeeps := keeps_switches Model.EchoSoc.standard (Word.lowMask 32)
  obtain ⟨-, hcounts, hvalue, hword⟩ := counts_in_closed_form hstart rfl hrange hbinding
    (Nat.le_refl 32) halone hkeeps quiet 9 _ (reaches_course hcauses)
  have hsix : countsBefore quiet b 9 = 6 := hcounts (by decide) (.inr (by decide))
  rw [hsix] at hvalue hword
  exact ⟨b, _, hstart, hrange, hbinding, halone, hkeeps, reaches_course hcauses, hsix, hvalue,
    hword⟩

end Bench

end PinBench
