import PinBench.Bench.Words
import PinBench.Proofs.Bench.Course
import PinBench.Proofs.Serial.Words

/-! The course of a run on a machine with words.  Whatever the machine makes of a sum that does not
fit, the serial link alone differs by it, so that the course keeps time, releases reset and treats
the model as the exact course does (`Along`).  As long as all sums fit, the run is the exact one
(`runIn_eq_run`). -/

namespace PinBench.Bench

variable {M : Type} [HardwareModel M] {around : Surroundings} {config : Config}
  {allocation : Gpio.Allocation} {f : Fixture M} {b c d : Bench M} {arrivals : Arrivals}
  {schedule : Schedule} {o : Overflow} {request : Option Cause} {n : Nat}

/-! ### The serial link -/

/-- The deadlines of the serial link are words, and its bits are as long as they are configured. -/
def InWords (b : Bench M) : Prop :=
  ∀ p, b.serial = some p → p.InWords (Serial.bitPeriod b.config.uart.baudRate)

/-- Two bits after the time of the bench is still a word, or there is no serial link. -/
def Roomy (b : Bench M) (now : Nat) : Prop :=
  b.serial.isSome = true → now + 2 * Serial.bitPeriod b.config.uart.baudRate ≤ Time.latest

theorem tickSerialIn_eq (hwords : b.InWords) (hroomy : b.Roomy b.time.now) :
    b.tickSerialIn o = some b.tickSerial := by
  cases hserial : b.serial with
  | none => simp only [tickSerialIn, tickSerial, hserial]
  | some p =>
    have htick := (hwords p hserial).tickIn_eq (o := o) (hroomy (by rw [hserial]; rfl)) b.fixture
    simp only [tickSerialIn, tickSerial, hserial, htick, Option.map_some]

theorem tickSerialIn_frame (hwords : b.InWords) (h : b.tickSerialIn o = some c) :
    ∃ serial fixture, c = { b with serial, fixture } ∧
      Fixture.DrivesOnly (· = .uartRx) b.fixture fixture ∧ serial.isSome = b.serial.isSome ∧
      c.InWords := by
  cases hserial : b.serial with
  | none =>
    simp only [tickSerialIn, hserial, Option.some.injEq] at h
    subst h
    exact ⟨b.serial, b.fixture, rfl, .refl, by rw [hserial], hwords⟩
  | some p =>
    simp only [tickSerialIn, hserial, Option.map_eq_some_iff] at h
    obtain ⟨⟨p', fixture⟩, htick, rfl⟩ := h
    obtain ⟨hwords', hdrives⟩ := (hwords p hserial).tickIn htick
    refine ⟨some p', fixture, rfl, hdrives, rfl, fun q hq => ?_⟩
    obtain rfl := Option.some.inj hq
    exact hwords'

theorem tickSerialIn_wraps (b : Bench M) : ∃ c, b.tickSerialIn .wraps = some c := by
  cases hserial : b.serial with
  | none => exact ⟨b, by simp only [tickSerialIn, hserial]⟩
  | some p =>
    obtain ⟨next, hnext⟩ := p.tickIn_wraps b.time.now b.fixture
    simp only [tickSerialIn, hserial, hnext, Option.map_some]
    exact ⟨_, rfl⟩

/-! ### The course -/

/-- `midway`, with sums in words. -/
def midwayIn (o : Overflow) (b : Bench M) (arrivals : Arrivals) :
    Option (Bench M × Option Cause) :=
  (b.settled arrivals).exchangeIn o

/-- The bench right before iteration `n`, if nothing ends the run before.  `none` if the program has
stopped by then. -/
def courseIn (o : Overflow) (schedule : Schedule) (b : Bench M) : Nat → Option (Bench M)
  | 0 => some b
  | n + 1 =>
    (courseIn o schedule b n).bind fun c => (c.midwayIn o (schedule n)).map fun m => m.1.advance

/-- What iteration `n` comes to: the bench when it looks for a cause to end, and what the probe asks
for.  `none` if the program has stopped by then. -/
def middleIn (o : Overflow) (schedule : Schedule) (b : Bench M) (n : Nat) :
    Option (Bench M × Option Cause) :=
  (courseIn o schedule b n).bind fun c => c.midwayIn o (schedule n)

/-- What the debug server's step came to in iteration `n`, which has got to `c`, if the server took
one: reset has been released and the gate is open. -/
def stepped? (c : Bench M) (n : Nat) : Option Jtag.Status :=
  c.probe.bind fun p =>
    if c.config.reset.releaseTime.toNat ≤ c.config.instant n ∧
      c.config.instant n % p.gate.period = 0 then some p.server.lastStatus
    else none

/-- `c` can be a bench in iteration `n` of a run of `b`. -/
structure Along (b : Bench M) (n : Nat) (c : Bench M) : Prop where
  config : c.config = b.config
  time : c.time = ⟨b.config.instant n, b.config.clockLevel n, false⟩
  timely : c.released = true → b.config.reset.releaseTime.toNat ≤ b.config.instant n
  bindings : c.fixture.bindings = b.fixture.bindings
  serial : c.serial.isSome = b.serial.isSome
  words : c.InWords

theorem along_start (h : start around config allocation f = .ok b) : Along b 0 b := by
  obtain ⟨serial, _, _, _, hserial, -, -, -, rfl⟩ := eq_of_start h
  refine ⟨rfl, ?_, (fun hr => by cases hr), rfl, rfl, fun p hp => ?_⟩
  · simp [Timebase.start, Config.instant, Config.clockLevel]
  · obtain rfl : serial = some p := hp
    have hlink := startSerial_eq hserial
    split at hlink
    · obtain rfl := Option.some.inj hlink
      exact Serial.Link.inWords_start _ _
    · cases hlink

/-- What the probe asks for is what its server's step has come to. -/
theorem tickOthers_request
    (hreleased : b.released = decide (b.config.reset.releaseTime.toNat ≤ b.config.instant n))
    (hnow : b.time.now = b.config.instant n) :
    b.tickOthers.2 = (b.tickOthers.1.stepped? n).bind Cause.ofStatus? := by
  obtain ⟨_, _, hrelay, -⟩ := tickRelay_eq b.tickProbe.1
  obtain ⟨_, _, hprobe, -⟩ := tickProbe_eq b
  have hkept : b.tickOthers.1.probe = b.tickProbe.1.probe ∧ b.tickOthers.1.config = b.config := by
    simp only [tickOthers, hrelay]
    exact ⟨trivial, by rw [hprobe]⟩
  show b.tickProbe.2 = _
  rw [stepped?, hkept.1, hkept.2]
  cases hprobe : b.probe with
  | none => simp [tickProbe, hprobe]
  | some p =>
    cases hlevel : b.released with
    | false =>
      rw [hlevel] at hreleased
      have hheld := of_decide_eq_false hreleased.symm
      simp [tickProbe, hprobe, hlevel, hheld]
    | true =>
      rw [hlevel] at hreleased
      have hfree := of_decide_eq_true hreleased.symm
      by_cases hopen : b.config.instant n % p.gate.period = 0
      · simp [tickProbe, hprobe, hlevel, Jtag.Probe.tick, Jtag.Gate.cycle?, hnow, hopen, hfree]
      · simp [tickProbe, hprobe, hlevel, Jtag.Probe.tick, Jtag.Gate.cycle?, hnow, hopen,
          Cause.ofStatus?]

theorem Along.midwayIn (h : Along b n c) (hmid : c.midwayIn o arrivals = some (d, request)) :
    Along b n d ∧ Settles c.fixture d.fixture ∧ request = (d.stepped? n).bind Cause.ofStatus? := by
  obtain ⟨e, hserial, hothers⟩ := Option.map_eq_some_iff.mp hmid
  obtain ⟨_, _, _, _, _, _, hsettled⟩ := settled_eq c arrivals
  have hconfig : (c.settled arrivals).config = b.config := by rw [hsettled]; exact h.config
  have htime : (c.settled arrivals).time = c.time := by rw [hsettled]
  have hreleased : (c.settled arrivals).released =
      decide (b.config.reset.releaseTime.toNat ≤ b.config.instant n) := by
    rw [settled_released (by rw [h.config, h.time]; exact h.timely), h.config, h.time]
  have hwords : (c.settled arrivals).InWords := by rw [hsettled]; exact h.words
  obtain ⟨link, g, rfl, hline, hsome, hlink⟩ := tickSerialIn_frame hwords hserial
  obtain ⟨_, _, _, g', hd, hside, -⟩ := tickOthers_eq
    { c.settled arrivals with serial := link, fixture := g }
  have hrequest := tickOthers_request (n := n)
    (b := { c.settled arrivals with serial := link, fixture := g })
    (by rw [hconfig]; exact hreleased) (by rw [hconfig, htime, h.time])
  rw [hothers] at hd hrequest
  replace hd : d = _ := hd
  have hsettles : Settles c.fixture d.fixture := by
    rw [hd]
    exact settles_of_settled ((hline.mono fun _ hrole => .inl hrole).trans
      (hside.mono fun _ hrole => .inr hrole))
  refine ⟨⟨?_, ?_, fun hr => ?_, hsettles.bindings.trans h.bindings, ?_, ?_⟩, hsettles, hrequest⟩
  · rw [hd]
    exact hconfig
  · rw [hd]
    exact htime.trans h.time
  · rw [hd] at hr
    exact of_decide_eq_true (hreleased.symm.trans hr)
  · rw [hd]
    refine hsome.trans ?_
    rw [hsettled]
    exact h.serial
  · rw [hd]
    exact hlink

theorem Along.advance (h : Along b n c) : Along b (n + 1) c.advance := by
  obtain ⟨_, g, hadvance, hdrives⟩ := advance_eq c
  have hadd : Time.after (b.config.instant n) b.config.timeStep = b.config.instant (n + 1) := by
    rw [Config.instant, Config.instant, Nat.succ_mul]
    exact Time.after_min _ _
  rw [hadvance]
  refine ⟨h.config, ?_, fun hr => Nat.le_trans (h.timely hr) (b.config.instant_mono n.le_succ), ?_,
    h.serial, h.words⟩
  · show c.time.toggle.advance c.config.timeStep = _
    rw [h.time, h.config, Config.clockLevel_succ, ← hadd]
    rfl
  · show g.bindings = _
    rw [hdrives.bindings, Fixture.drive, Fixture.write_bindings, h.bindings]

/-- The program has not stopped by iteration `n + 1` if it has come through iteration `n`. -/
theorem courseIn_succ {schedule : Schedule} (h : courseIn o schedule b (n + 1) = some d) :
    ∃ c request, middleIn o schedule b n = some (c, request) ∧ d = c.advance := by
  obtain ⟨c, hc, hnext⟩ := Option.bind_eq_some_iff.mp h
  obtain ⟨⟨m, request⟩, hm, rfl⟩ := Option.map_eq_some_iff.mp hnext
  exact ⟨m, request, Option.bind_eq_some_iff.mpr ⟨c, hc, hm⟩, rfl⟩

theorem Along.courseIn (h : Along b 0 b) (hc : courseIn o schedule b n = some c) :
    Along b n c := by
  induction n generalizing c with
  | zero => exact Option.some.inj hc ▸ h
  | succ n ih =>
    obtain ⟨m, request, hm, rfl⟩ := courseIn_succ hc
    obtain ⟨c, hc, hmid⟩ := Option.bind_eq_some_iff.mp hm
    exact ((ih hc).midwayIn hmid).1.advance

theorem Along.middleIn (h : Along b 0 b) (hm : middleIn o schedule b n = some (d, request)) :
    Along b n d ∧ request = (d.stepped? n).bind Cause.ofStatus? := by
  obtain ⟨c, hc, hmid⟩ := Option.bind_eq_some_iff.mp hm
  obtain ⟨halong, -, hrequest⟩ := (h.courseIn hc).midwayIn hmid
  exact ⟨halong, hrequest⟩

/-! ### What a run comes to -/

/-- What a run comes to in iteration `n`, if it gets there and then ends or stops. -/
def outcomeAt? (o : Overflow) (schedule : Schedule) (b : Bench M) (n : Nat) :
    Option (Except Nat (Bench M × Cause × Nat)) :=
  (courseIn o schedule b n).bind fun c =>
    match c.turnIn o (schedule n) with
    | none => some (.error n)
    | some (d, some cause) => some (.ok (d, cause, n))
    | some (_, none) => none

/-- The ways in which a run comes to something, or to nothing, in iteration `n`. -/
inductive Turned (o : Overflow) (schedule : Schedule) (b : Bench M) (n : Nat) :
    Option (Except Nat (Bench M × Cause × Nat)) → Prop
  | unreached : courseIn o schedule b n = none → Turned o schedule b n none
  | stopped {c : Bench M} : courseIn o schedule b n = some c → c.midwayIn o (schedule n) = none →
      Turned o schedule b n (some (.error n))
  | ended {m : Bench M} {request : Option Cause} {cause : Cause} :
      middleIn o schedule b n = some (m, request) →
        m.cause? (schedule n).stop request = some cause →
          Turned o schedule b n (some (.ok ({ m with time := m.time.finish }, cause, n)))
  | passed {m : Bench M} {request : Option Cause} :
      middleIn o schedule b n = some (m, request) → m.cause? (schedule n).stop request = none →
        courseIn o schedule b (n + 1) = some m.advance → Turned o schedule b n none

theorem turned (o : Overflow) (schedule : Schedule) (b : Bench M) (n : Nat) :
    Turned o schedule b n (outcomeAt? o schedule b n) := by
  cases hc : courseIn o schedule b n with
  | none =>
    rw [outcomeAt?, hc, Option.bind_none]
    exact .unreached hc
  | some c =>
    rw [outcomeAt?, hc, Option.bind_some]
    cases hmid : c.midwayIn o (schedule n) with
    | none =>
      have hturn : c.turnIn o (schedule n) = none := congrArg (Option.map _) hmid
      rw [hturn]
      exact .stopped hc hmid
    | some m =>
      obtain ⟨m, request⟩ := m
      have hturn : c.turnIn o (schedule n) = some (m.proceed (schedule n).stop request) :=
        congrArg (Option.map _) hmid
      have hm : middleIn o schedule b n = some (m, request) := by
        rw [middleIn, hc, Option.bind_some, hmid]
      rw [hturn, proceed]
      cases hcause : m.cause? (schedule n).stop request with
      | none =>
        refine .passed hm hcause ?_
        rw [courseIn, hc, Option.bind_some, hmid, Option.map_some]
      | some cause => exact .ended hm hcause

theorem turnIn_of_middleIn (hc : courseIn o schedule b n = some c)
    (hm : middleIn o schedule b n = some (d, request)) :
    c.turnIn o (schedule n) = some (d.proceed (schedule n).stop request) := by
  rw [middleIn, hc, Option.bind_some] at hm
  exact congrArg (Option.map _) hm

theorem outcomeAt?_of_cause {cause : Cause} (hm : middleIn o schedule b n = some (c, request))
    (hcause : c.cause? (schedule n).stop request = some cause) :
    outcomeAt? o schedule b n = some (.ok ({ c with time := c.time.finish }, cause, n)) := by
  obtain ⟨e, he, -⟩ := Option.bind_eq_some_iff.mp hm
  simp only [outcomeAt?, he, Option.bind_some, turnIn_of_middleIn he hm, proceed, hcause]

theorem runFromIn_of_outcome {fuel : Nat} {result : Except Nat (Bench M × Cause × Nat)}
    (hc : courseIn o schedule b n = some c) (hout : outcomeAt? o schedule b n = some result) :
    runFromIn o schedule n c (fuel + 1) = some result := by
  rw [outcomeAt?, hc, Option.bind_some] at hout
  cases hturn : c.turnIn o (schedule n) with
  | none =>
    rw [hturn] at hout
    rw [runFromIn, hturn, ← hout]
  | some turned =>
    obtain ⟨d, request⟩ := turned
    rw [hturn] at hout
    cases request with
    | none => cases hout
    | some cause => rw [runFromIn, hturn, ← hout]

theorem runFromIn_of_none (hc : courseIn o schedule b n = some c)
    (hout : outcomeAt? o schedule b n = none) :
    ∃ d, courseIn o schedule b (n + 1) = some d ∧
      ∀ fuel, runFromIn o schedule n c (fuel + 1) = runFromIn o schedule (n + 1) d fuel := by
  have hturned := turned o schedule b n
  rw [hout] at hturned
  cases hturned with
  | unreached hnone =>
    rw [hc] at hnone
    cases hnone
  | passed hm hcause hnext =>
    refine ⟨_, hnext, fun fuel => ?_⟩
    have hturn := turnIn_of_middleIn hc hm
    simp only [proceed, hcause] at hturn
    simp only [runFromIn, hturn]

/-- A run from iteration `n` on comes to what the first iteration does that comes to something. -/
theorem runFromIn_eq_some_iff {fuel : Nat} {result : Except Nat (Bench M × Cause × Nat)}
    (hc : courseIn o schedule b n = some c) :
    runFromIn o schedule n c fuel = some result ↔
      ∃ last, n ≤ last ∧ last < n + fuel ∧
        (∀ m, n ≤ m → m < last → outcomeAt? o schedule b m = none) ∧
          outcomeAt? o schedule b last = some result := by
  induction fuel generalizing n c with
  | zero =>
    simp only [runFromIn, reduceCtorEq, false_iff]
    rintro ⟨last, hle, hlt, -⟩
    omega
  | succ fuel ih =>
    cases hout : outcomeAt? o schedule b n with
    | some first =>
      rw [runFromIn_of_outcome hc hout]
      constructor
      · intro hfirst
        exact ⟨n, Nat.le_refl n, by omega, fun m hm hml => by omega, hout.trans hfirst⟩
      · rintro ⟨last, hle, -, hbefore, hlast⟩
        have hsame : last = n := by
          refine Nat.le_antisymm (Nat.le_of_not_lt fun hlt => ?_) hle
          rw [hbefore n (Nat.le_refl n) hlt] at hout
          cases hout
        rw [← hout, ← hsame, hlast]
    | none =>
      obtain ⟨d, hd, hnext⟩ := runFromIn_of_none hc hout
      rw [hnext, ih hd]
      constructor
      · rintro ⟨last, hle, hlt, hbefore, hlast⟩
        refine ⟨last, by omega, by omega, fun m hm hml => ?_, hlast⟩
        rcases Nat.eq_or_lt_of_le hm with rfl | hm'
        · exact hout
        · exact hbefore m hm' hml
      · rintro ⟨last, hle, hlt, hbefore, hlast⟩
        have hne : n ≠ last := by
          rintro rfl
          rw [hout] at hlast
          cases hlast
        exact ⟨last, by omega, by omega, fun m hm => hbefore m (by omega), hlast⟩

/-- What a run has come to after `fuel` iterations, in terms of its iterations. -/
theorem runIn_eq_some_iff {fuel : Nat} {result : Except Nat (Report × Bench M × Nat)} :
    runIn o schedule 0 b fuel = some result ↔
      ∃ last < fuel, (∀ m < last, outcomeAt? o schedule b m = none) ∧
        ∃ outcome, outcomeAt? o schedule b last = some outcome ∧
          result = outcome.map fun (d, cause, last) =>
            ((d.conclude cause).1, (d.conclude cause).2, last + 1) := by
  have hzero : courseIn o schedule b 0 = some b := rfl
  rw [runIn, Option.map_eq_some_iff]
  constructor
  · rintro ⟨outcome, hrun, rfl⟩
    obtain ⟨last, -, hlt, hbefore, hlast⟩ := (runFromIn_eq_some_iff hzero).mp hrun
    exact ⟨last, by omega, fun m hm => hbefore m (Nat.zero_le m) hm, outcome, hlast, rfl⟩
  · rintro ⟨last, hlt, hbefore, outcome, hlast, rfl⟩
    refine ⟨outcome, (runFromIn_eq_some_iff hzero).mpr ⟨last, Nat.zero_le last, by omega,
      fun m _ hm => hbefore m hm, hlast⟩, rfl⟩

theorem runIn_eq_ok_iff {fuel next : Nat} {report : Report} :
    runIn o schedule 0 b fuel = some (.ok (report, d, next)) ↔
      ∃ n < fuel, next = n + 1 ∧ (∀ m < n, outcomeAt? o schedule b m = none) ∧
        ∃ c request, middleIn o schedule b n = some (c, request) ∧
          c.cause? (schedule n).stop request = some report.cause ∧
            (report, d) = ({ c with time := c.time.finish } : Bench M).conclude report.cause := by
  rw [runIn_eq_some_iff]
  constructor
  · rintro ⟨n, hn, hbefore, outcome, hout, hresult⟩
    have hturned := turned o schedule b n
    rw [hout] at hturned
    cases hturned with
    | stopped => cases hresult
    | ended hm hcause =>
      obtain ⟨rfl, rfl, rfl⟩ := by simpa [Except.map] using hresult
      exact ⟨n, hn, rfl, hbefore, _, _, hm, hcause, rfl⟩
  · rintro ⟨n, hn, rfl, hbefore, c, request, hm, hcause, heq⟩
    refine ⟨n, hn, hbefore, _, outcomeAt?_of_cause hm hcause, ?_⟩
    rw [Prod.mk.injEq] at heq
    simp only [Except.map, ← heq.1, ← heq.2]

theorem middleIn_of_courseIn (hc : courseIn o schedule b n = some c) {m : Nat} (hm : m < n) :
    ∃ q, middleIn o schedule b m = some q := by
  induction n generalizing c with
  | zero => exact absurd hm (Nat.not_lt_zero m)
  | succ n ih =>
    obtain ⟨d, request, hmiddle, -⟩ := courseIn_succ hc
    rcases Nat.lt_succ_iff_lt_or_eq.mp hm with hlt | rfl
    · obtain ⟨e, he, -⟩ := Option.bind_eq_some_iff.mp hmiddle
      exact ih he hlt
    · exact ⟨_, hmiddle⟩

/-- A run that has come to nothing before iteration `n` gets there. -/
theorem courseIn_of_none (hbefore : ∀ m < n, outcomeAt? o schedule b m = none) :
    ∃ c, courseIn o schedule b n = some c := by
  induction n with
  | zero => exact ⟨b, rfl⟩
  | succ n ih =>
    obtain ⟨c, hc⟩ := ih fun m hm => hbefore m (Nat.lt_succ_of_lt hm)
    obtain ⟨d, hd, -⟩ := runFromIn_of_none hc (hbefore n (Nat.lt_succ_self n))
    exact ⟨d, hd⟩

/-! ### Where all sums fit -/

theorem midwayIn_eq (h : Along b n c) (hroomy : b.Roomy (b.config.instant n)) :
    c.midwayIn o arrivals = some (c.midway arrivals) := by
  obtain ⟨_, _, _, _, _, _, hsettled⟩ := settled_eq c arrivals
  have hserial : (c.settled arrivals).tickSerialIn o = some (c.settled arrivals).tickSerial := by
    refine tickSerialIn_eq (by rw [hsettled]; exact h.words) ?_
    rw [hsettled]
    intro hlink
    rw [h.serial] at hlink
    have hfits := hroomy hlink
    rw [h.config, h.time]
    exact hfits
  rw [Bench.midwayIn, exchangeIn, hserial, Option.map_some]
  rfl

/-- If two bits after the last time of a run are still a word, the run is the exact one. -/
theorem runIn_eq_run (h : start around config allocation f = .ok b) (schedule : Schedule)
    (fuel : Nat) (hroomy : b.Roomy (config.instant fuel)) :
    runIn o schedule 0 b fuel = (run schedule 0 b fuel).map .ok := by
  have hrest (rest : Nat) : ∀ (n : Nat) (c : Bench M), n + rest = fuel → Along b n c →
      runFromIn o schedule n c rest = (runFrom schedule n c rest).map .ok := by
    induction rest with
    | zero => exact fun _ _ _ _ => rfl
    | succ rest ih =>
      intro n c hfuel halong
      have hroomy' : b.Roomy (b.config.instant n) := fun hlink => by
        have hle : b.config.instant n ≤ b.config.instant fuel := b.config.instant_mono (by omega)
        have hfits := hroomy hlink
        rw [← start_config h] at hfits
        exact Nat.le_trans (Nat.add_le_add_right hle _) hfits
      have hmid : c.midwayIn o (schedule n) = some (c.midway (schedule n)) :=
        midwayIn_eq halong hroomy'
      have hturn : c.turnIn o (schedule n) = some (c.turn (schedule n)) := by
        show (c.midwayIn o (schedule n)).map _ = _
        rw [hmid]
        rfl
      simp only [runFromIn, runFrom, hturn]
      cases hnext : c.turn (schedule n) with
      | mk d cause =>
        cases cause with
        | some cause => rfl
        | none =>
          rw [turn_eq_none hnext]
          exact ih (n + 1) _ (by omega) (halong.midwayIn hmid).1.advance
  rw [runIn, run, hrest fuel 0 b (Nat.zero_add fuel) (along_start h), Option.map_map, Option.map_map]
  rfl

/-- A run stops short only where a sum of times does not fit into a word. -/
theorem stops_of_runIn (halong : Along b 0 b) {fuel : Nat}
    (h : runIn o schedule 0 b fuel = some (.error n)) :
    o = .stops ∧ ¬b.Roomy (b.config.instant n) := by
  obtain ⟨last, -, -, outcome, hout, hresult⟩ := runIn_eq_some_iff.mp h
  have hturned := turned o schedule b last
  rw [hout] at hturned
  cases hturned with
  | ended => cases hresult
  | @stopped e hc hmid =>
    obtain rfl : n = last := by simpa [Except.map] using hresult
    have hcourse := halong.courseIn hc
    refine ⟨?_, fun hroomy => ?_⟩
    · cases o with
      | stops => rfl
      | wraps =>
        obtain ⟨g, hg⟩ := tickSerialIn_wraps (e.settled (schedule n))
        rw [midwayIn, exchangeIn, hg] at hmid
        cases hmid
    · rw [midwayIn_eq hcourse hroomy] at hmid
      cases hmid

end PinBench.Bench
