import Mathlib.Data.Nat.Find
import Mathlib.Order.Bounds.Defs
import PinBench.Proofs.Bench.Mirror
import PinBench.Proofs.Bench.Words
import PinBench.Proofs.Model.Logged

/-! How a run ends.  In each iteration the causes to end are looked for in a fixed order, and the
run ends with the first iteration in which one of them holds (`cause?_eq_find?`).  Until then every
iteration evaluates the model once and changes the level of the clock once, which the log of a
logged model shows.  With a time limit there is always such an iteration, unless the machine stops
the program before it, which it does only if a sum of times does not fit into a word (`run_ends`).
-/

namespace PinBench.Bench

variable {M : Type} [HardwareModel M] {around : Surroundings} {config : Config}
  {allocation : Gpio.Allocation} {f : Fixture M} {b c d : Bench M} {schedule : Schedule}
  {o : Overflow} {request : Option Cause} {n : Nat}

/-- Whether a cause to end holds in iteration `n`.  None does if the program has stopped by then. -/
def triggered (o : Overflow) (schedule : Schedule) (b : Bench M) (n : Nat) (cause : Cause) : Bool :=
  (middleIn o schedule b n).any fun (c, _) =>
    match cause with
    | .modelFinished => c.fixture.finished
    | .timeout => b.config.timeout != 0 && decide (b.config.timeout.toNat ≤ b.config.instant n)
    | .interrupted => (schedule n).stop
    | .jtagDisconnected => c.stepped? n == some .clientDisconnected
    | .jtagProtocolError => c.stepped? n == some .protocolError

/-! ### The cause -/

theorem triggered_of_middleIn_none (h : middleIn o schedule b n = none) (cause : Cause) :
    triggered o schedule b n cause = false := by
  rw [triggered, h, Option.any_none]

omit [HardwareModel M] in
theorem timedOut_eq (h : Along b n c) : c.time.timedOut c.config.timeout.toNat =
    (b.config.timeout != 0 && decide (b.config.timeout.toNat ≤ b.config.instant n)) := by
  have hzero : (b.config.timeout.toNat != 0) = (b.config.timeout != 0) := by
    rw [bne, bne, Bool.not_inj_iff, Bool.beq_eq_decide_eq, Bool.beq_eq_decide_eq, decide_eq_decide]
    exact UInt64.toNat_inj (b := 0)
  rw [h.config, h.time, Timebase.timedOut, hzero]

/-- The cause of an iteration is the first one that holds. -/
theorem cause?_eq_find? (halong : Along b 0 b) (hm : middleIn o schedule b n = some (c, request)) :
    c.cause? (schedule n).stop request = Cause.all.find? (triggered o schedule b n) := by
  obtain ⟨h, hstep⟩ := halong.middleIn hm
  have hlimit := timedOut_eq h
  have hrequest : request =
      [.jtagDisconnected, .jtagProtocolError].find? (triggered o schedule b n) := by
    rw [hstep]
    cases hstatus : c.stepped? n with
    | none => simp [triggered, hm, hstatus]
    | some status => cases status <;> simp [triggered, hm, hstatus, Cause.ofStatus?]
  have hcause : c.cause? (schedule n).stop request =
      if triggered o schedule b n .modelFinished then some .modelFinished
      else if triggered o schedule b n .timeout then some .timeout
      else if triggered o schedule b n .interrupted then some .interrupted
      else request := by
    simp only [triggered, hm, Option.any_some, cause?, hlimit]
  rw [hcause, hrequest, Cause.all]
  cases hfinished : triggered o schedule b n .modelFinished with
  | true => simp only [List.find?_cons, hfinished, if_true]
  | false =>
    cases htimeout : triggered o schedule b n .timeout with
    | true => simp only [List.find?_cons, hfinished, htimeout, Bool.false_eq_true, if_false, if_true]
    | false =>
      cases hstop : triggered o schedule b n .interrupted <;>
        simp only [List.find?_cons, hfinished, htimeout, hstop, Bool.false_eq_true, if_false,
          if_true]

theorem cause?_eq_none_iff (halong : Along b 0 b)
    (hm : middleIn o schedule b n = some (c, request)) :
    c.cause? (schedule n).stop request = none ↔
      ∀ cause, triggered o schedule b n cause = false := by
  have hall (cause : Cause) : cause ∈ Cause.all := by cases cause <;> decide
  simp [cause?_eq_find? halong hm, List.find?_eq_none, hall]

theorem middleIn_of_triggered {cause : Cause} (h : triggered o schedule b n cause = true) :
    ∃ c request, middleIn o schedule b n = some (c, request) := by
  cases hm : middleIn o schedule b n with
  | none =>
    rw [triggered_of_middleIn_none hm] at h
    cases h
  | some q => exact ⟨q.1, q.2, rfl⟩

theorem not_triggered_of_none (halong : Along b 0 b) (hout : outcomeAt? o schedule b n = none)
    (cause : Cause) : triggered o schedule b n cause = false := by
  have hturned := turned o schedule b n
  rw [hout] at hturned
  cases hturned with
  | unreached hc => exact triggered_of_middleIn_none (by rw [middleIn, hc, Option.bind_none]) cause
  | passed hm hcause => exact (cause?_eq_none_iff halong hm).mp hcause cause

theorem outcomeAt?_of_not_triggered (halong : Along b 0 b) {q : Bench M × Option Cause}
    (hm : middleIn o schedule b n = some q)
    (hnone : ∀ cause, triggered o schedule b n cause = false) :
    outcomeAt? o schedule b n = none := by
  have hcause := (cause?_eq_none_iff halong hm).mpr hnone
  obtain ⟨e, he, -⟩ := Option.bind_eq_some_iff.mp hm
  simp only [outcomeAt?, he, Option.bind_some, turnIn_of_middleIn he hm, proceed, hcause]

/-! ### What is done to the model -/

theorem Settles.evals {f g : Fixture (Logged M)} (h : Settles f g) :
    g.model.evals = f.model.evals + 1 := by
  obtain ⟨e, hrelease, hexchange⟩ := h
  have heval : e.eval.model.evals = e.model.evals + 1 := Logged.evals_eval e.model
  rw [hexchange.view fun _ _ _ _ _ m value => Logged.evals_write m _ value, heval,
    hrelease.view fun _ _ _ _ _ m value => Logged.evals_write m _ value]

theorem evals_advance (c : Bench (Logged M)) :
    c.advance.fixture.model.evals = c.fixture.model.evals := by
  have hclock : Fixture.DrivesOnly (fun _ => True) c.fixture
      (c.fixture.drive .clock (!c.time.clock)) := .drive .refl _ _ trivial
  have hadvance : Fixture.DrivesOnly (fun _ => True) c.fixture c.advance.fixture :=
    hclock.trans ((advance_fixture c).mono fun _ _ => trivial)
  exact hadvance.view fun _ _ _ _ _ m value => Logged.evals_write m _ value

omit [HardwareModel M] in
theorem Along.logged (h : Along b 0 b) : Along b.logged 0 b.logged :=
  ⟨h.config, h.time, h.timely, rfl, rfl, h.words⟩

section Log

variable {c d : Bench (Logged M)} {id : SignalId} {mask : Word}

/-- Up to iteration `n` the model has been evaluated `n + 1` times. -/
theorem evals_middleIn (halong : Along b 0 b)
    (hm : middleIn o schedule b.logged n = some (d, request)) :
    d.fixture.model.evals = n + 1 := by
  have hcourse (n : Nat) : ∀ c, courseIn o schedule b.logged n = some c →
      c.fixture.model.evals = n := by
    induction n with
    | zero => exact fun c hc => Option.some.inj hc ▸ rfl
    | succ n ih =>
      intro c hc
      obtain ⟨m, request, hm, rfl⟩ := courseIn_succ hc
      obtain ⟨e, he, hmid⟩ := Option.bind_eq_some_iff.mp hm
      rw [evals_advance, ((halong.logged.courseIn he).midwayIn hmid).2.1.evals, ih e he]
  obtain ⟨c, hc, hmid⟩ := Option.bind_eq_some_iff.mp hm
  rw [((halong.logged.courseIn hc).midwayIn hmid).2.1.evals, hcourse n c hc]

theorem Settles.writes {f g : Fixture (Logged M)} (h : Settles f g) (halone : f.Alone .clock id) :
    g.model.writes id = f.model.writes id := by
  obtain ⟨e, hrelease, hexchange⟩ := h
  have heval : e.eval.model.writes id = e.model.writes id := Logged.writes_eval e.model id
  have hreset : ¬isResetLine .clock := by simp [isResetLine]
  have hside : ¬isExchangeLine .clock := by
    simp [isExchangeLine, isSideLine, Fixture.isProbeLine]
  have healone : e.eval.Alone .clock id := hrelease.alone halone
  rw [hexchange.view_of_alone (·.writes id) healone hside
      fun m _ value hne => Logged.writes_write_of_ne m value hne, heval,
    hrelease.view_of_alone (·.writes id) halone hreset
      fun m _ value hne => Logged.writes_write_of_ne m value hne]

theorem writes_advance (hclock : c.fixture.binding? .clock = some ⟨id, mask⟩)
    (halone : c.fixture.Alone .clock id) :
    c.advance.fixture.model.writes id =
      c.fixture.model.writes id ++ [Word.ofLevel (!c.time.clock) &&& mask] := by
  have hdrive : Fixture.DrivesOnly (· = .clock) c.fixture
      (c.fixture.drive .clock (!c.time.clock)) := .drive .refl _ _ rfl
  have hnone : Role.clock ≠ .gpioIn := by decide
  rw [(advance_fixture c).view_of_alone (·.writes id) (hdrive.alone halone) hnone
      fun m _ value hne => Logged.writes_write_of_ne m value hne,
    Fixture.drive, Fixture.write_model rfl hclock]
  exact Logged.writes_write_self _ id _

/-- Up to iteration `n` the clock line has taken `n` levels, each the opposite of the one before. -/
theorem writes_middleIn (halong : Along b 0 b)
    (hclock : b.fixture.binding? .clock = some ⟨id, mask⟩) (halone : b.fixture.Alone .clock id)
    (hm : middleIn o schedule b.logged n = some (d, request)) :
    d.fixture.model.writes id =
      (List.range n).map fun k => Word.ofLevel (b.config.clockLevel (k + 1)) &&& mask := by
  have hkept {n : Nat} {c : Bench (Logged M)} (h : Along b.logged n c) : c.fixture.Alone .clock id :=
    halone.of_bindings h.bindings
  have hcourse (n : Nat) : ∀ c, courseIn o schedule b.logged n = some c →
      c.fixture.model.writes id =
        (List.range n).map fun k => Word.ofLevel (b.config.clockLevel (k + 1)) &&& mask := by
    induction n with
    | zero => exact fun c hc => Option.some.inj hc ▸ rfl
    | succ n ih =>
      intro c hc
      obtain ⟨m, request, hm, rfl⟩ := courseIn_succ hc
      obtain ⟨e, he, hmid⟩ := Option.bind_eq_some_iff.mp hm
      have hbefore := halong.logged.courseIn he
      obtain ⟨hafter, hsettles, -⟩ := hbefore.midwayIn hmid
      have hbinding : m.fixture.binding? .clock = some ⟨id, mask⟩ := by
        rw [Fixture.binding?, hafter.bindings]
        exact hclock
      have hlevel : (!m.time.clock) = b.config.clockLevel (n + 1) := by
        rw [hafter.time, Config.clockLevel_succ]
        rfl
      rw [writes_advance hbinding (hkept hafter), hsettles.writes (hkept hbefore), ih e he, hlevel,
        List.range_succ, List.map_append]
      rfl
  obtain ⟨c, hc, hmid⟩ := Option.bind_eq_some_iff.mp hm
  have hbefore := halong.logged.courseIn hc
  rw [(hbefore.midwayIn hmid).2.1.writes (hkept hbefore), hcourse n c hc]

end Log

/-! ### Whole runs -/

/-- A run of `b` ended with iteration `n`: what it reports, the bench `d` it leaves, and what it did
to the model and the clock. -/
structure Ends (o : Overflow) (schedule : Schedule) (b : Bench M) (n : Nat) (report : Report)
    (d : Bench M) : Prop where
  cause : Cause.all.find? (triggered o schedule b n) = some report.cause
  finalTime : report.finalTime = b.config.instant n
  limit : report.cause = .timeout → b.config.timeout.toNat ≤ report.finalTime
  /-- The level of the clock changed in each iteration but the last one. -/
  toggled : ∀ m < n, ∃ c c', courseIn o schedule b m = some c ∧
    courseIn o schedule b (m + 1) = some c' ∧ c'.time.clock = !c.time.clock
  clock : d.time.clock = b.config.clockLevel n
  /-- The same run with a log: the model was evaluated `n + 1` times, and a clock line that nothing
  else drives took `n` levels, each the opposite of the one before. -/
  log : ∃ e, runIn o schedule 0 b.logged (n + 1) = some (.ok (report, e, n + 1)) ∧
    e.map Logged.model = d ∧ e.fixture.model.evals = n + 1 ∧
      ∀ id mask, b.fixture.binding? .clock = some ⟨id, mask⟩ → b.fixture.Alone .clock id →
        e.fixture.model.writes id =
          (List.range n).map fun k => Word.ofLevel (b.config.clockLevel (k + 1)) &&& mask

omit [HardwareModel M] in
theorem shutdown_time (b : Bench M) : b.shutdown.time = b.time := by
  unfold shutdown
  split <;> rfl

theorem ends_of_runIn (halong : Along b 0 b) {fuel next : Nat} {report : Report}
    (h : runIn o schedule 0 b fuel = some (.ok (report, d, next))) :
    ∃ n < fuel, next = n + 1 ∧ Ends o schedule b n report d := by
  obtain ⟨n, hn, rfl, hbefore, c, request, hm, hcause, heq⟩ := runIn_eq_ok_iff.mp h
  have hrun : runIn o schedule 0 b (n + 1) = some (.ok (report, d, n + 1)) :=
    runIn_eq_ok_iff.mpr ⟨n, n.lt_succ_self, rfl, hbefore, c, request, hm, hcause, heq⟩
  rw [conclude, Prod.mk.injEq] at heq
  obtain ⟨hreport, hd⟩ := heq
  obtain ⟨hc, -⟩ := halong.middleIn hm
  have hfirst : Cause.all.find? (triggered o schedule b n) = some report.cause := by
    rw [← cause?_eq_find? halong hm]
    exact hcause
  have hfinal : report.finalTime = b.config.instant n := by
    rw [hreport]
    exact congrArg Timebase.now hc.time
  refine ⟨n, hn, rfl, hfirst, hfinal, fun htimeout => ?_, fun m hm => ?_, ?_, ?_⟩
  · have hheld := List.find?_some hfirst
    rw [htimeout, triggered, hm, Option.any_some, Bool.and_eq_true, decide_eq_true_eq] at hheld
    rw [hfinal]
    exact hheld.2
  · obtain ⟨e, he⟩ := courseIn_of_none fun k hk => hbefore k (Nat.lt_trans hk hm)
    obtain ⟨e', he'⟩ := courseIn_of_none (n := m + 1) fun k hk => hbefore k (by omega)
    refine ⟨e, e', he, he', ?_⟩
    rw [(halong.courseIn he).time, (halong.courseIn he').time, Config.clockLevel_succ]
  · rw [hd, shutdown_time]
    exact congrArg Timebase.clock hc.time
  · rw [← b.logged_model, runIn_map Logged.mimics, Option.map_eq_some_iff] at hrun
    obtain ⟨result, hlogged, hmap⟩ := hrun
    cases result with
    | error _ => cases hmap
    | ok result =>
      obtain ⟨report', e, next⟩ := result
      obtain ⟨rfl, hmodel, rfl⟩ : report' = report ∧ e.map Logged.model = d ∧ next = n + 1 := by
        simpa [Except.map] using hmap
      obtain ⟨last, -, hlast, -, c', _, hm', -, hconclude⟩ := runIn_eq_ok_iff.mp hlogged
      obtain rfl : n = last := Nat.succ.inj hlast
      have hfixture : e.fixture = c'.fixture := by
        rw [conclude, Prod.mk.injEq] at hconclude
        rw [hconclude.2, shutdown_fixture]
      refine ⟨e, hlogged, hmodel, ?_, fun id mask hclock halone => ?_⟩
      · rw [hfixture]
        exact evals_middleIn halong hm'
      · rw [hfixture]
        exact writes_middleIn halong hclock halone hm'

/-- A run that does not go past iteration `k` comes to something by then. -/
theorem exists_outcome (halong : Along b 0 b) {k : Nat}
    (hk : ∀ c request, middleIn o schedule b k = some (c, request) →
      ∃ cause, triggered o schedule b k cause = true) :
    ∃ n ≤ k, ∃ result, runIn o schedule 0 b (k + 1) = some result ∧
      (result = .error n ∨ ∃ report d, result = .ok (report, d, n + 1)) := by
  classical
  have hex : ∃ n, n ≤ k ∧ outcomeAt? o schedule b n ≠ none := by
    by_contra hnone
    have hall (n : Nat) (hn : n ≤ k) : outcomeAt? o schedule b n = none := by
      by_contra hne
      exact hnone ⟨n, hn, hne⟩
    obtain ⟨c, hc⟩ := courseIn_of_none (n := k + 1) fun m hm => hall m (Nat.le_of_lt_succ hm)
    obtain ⟨⟨d, request⟩, hd⟩ := middleIn_of_courseIn hc k.lt_succ_self
    obtain ⟨cause, hcause⟩ := hk d request hd
    rw [not_triggered_of_none halong (hall k (Nat.le_refl k))] at hcause
    cases hcause
  obtain ⟨hle, hne⟩ := Nat.find_spec hex
  obtain ⟨outcome, hout⟩ := Option.ne_none_iff_exists'.mp hne
  have hbefore (m : Nat) (hm : m < Nat.find hex) : outcomeAt? o schedule b m = none := by
    by_contra hm'
    exact Nat.find_min hex hm ⟨Nat.le_trans (Nat.le_of_lt hm) hle, hm'⟩
  refine ⟨Nat.find hex, hle, _,
    runIn_eq_some_iff.mpr ⟨Nat.find hex, Nat.lt_succ_of_le hle, hbefore, outcome, hout, rfl⟩, ?_⟩
  have hturned := turned o schedule b (Nat.find hex)
  rw [hout] at hturned
  cases hturned with
  | stopped => exact .inl rfl
  | ended => exact .inr ⟨_, _, rfl⟩

/-- A run ends with the first iteration in which a cause to end holds.  It stops short of that only
on a machine that does not wrap sums, with a serial link, and less than two bits before the last
instant.  With a time limit it comes to something, at the latest at the first multiple of the time
step that is not below the limit. -/
theorem run_ends (h : start around config allocation f = .ok b) (schedule : Schedule)
    (o : Overflow) :
    (∀ n, (∃ fuel report d, runIn o schedule 0 b fuel = some (.ok (report, d, n + 1))) ↔
      (∃ cause, triggered o schedule b n cause = true) ∧
        ∀ m < n, ∀ cause, triggered o schedule b m cause = false) ∧
    (∀ fuel report d next, runIn o schedule 0 b fuel = some (.ok (report, d, next)) →
      ∃ n, next = n + 1 ∧ Ends o schedule b n report d) ∧
    (∀ fuel n, runIn o schedule 0 b fuel = some (.error n) →
      o = .stops ∧ b.serial.isSome = true ∧
        Time.latest < config.instant n + 2 * Serial.bitPeriod config.uart.baudRate) ∧
    (config.timeout ≠ 0 →
      ∃ k, IsLeast {k | config.timeout.toNat ≤ k * config.timeStep} k ∧
        ∃ n ≤ k, (∃ report d, runIn o schedule 0 b (k + 1) = some (.ok (report, d, n + 1)) ∧
            report.finalTime ≤ config.instant k) ∨
          runIn o schedule 0 b (k + 1) = some (.error n)) := by
  have halong := along_start h
  have hconfig := start_config h
  refine ⟨fun n => ⟨?_, ?_⟩, fun fuel report d next hrun => ?_, fun fuel n hrun => ?_,
    fun hlimit => ?_⟩
  · rintro ⟨fuel, report, d, hrun⟩
    obtain ⟨last, -, hlast, hbefore, c, request, hm, hcause, -⟩ := runIn_eq_ok_iff.mp hrun
    obtain rfl : n = last := Nat.succ.inj hlast
    rw [cause?_eq_find? halong hm] at hcause
    exact ⟨⟨_, List.find?_some hcause⟩, fun m hm => not_triggered_of_none halong (hbefore m hm)⟩
  · rintro ⟨⟨cause, hcause⟩, hbefore⟩
    obtain ⟨c, request, hm⟩ := middleIn_of_triggered hcause
    obtain ⟨e, he, -⟩ := Option.bind_eq_some_iff.mp hm
    cases hfirst : c.cause? (schedule n).stop request with
    | none =>
      rw [(cause?_eq_none_iff halong hm).mp hfirst] at hcause
      cases hcause
    | some first =>
      refine ⟨n + 1, ⟨first, _, _⟩, _, runIn_eq_ok_iff.mpr ⟨n, n.lt_succ_self, rfl,
        fun m hlt => ?_, c, request, hm, hfirst, rfl⟩⟩
      obtain ⟨q, hq⟩ := middleIn_of_courseIn he hlt
      exact outcomeAt?_of_not_triggered halong hq (hbefore m hlt)
  · obtain ⟨n, -, hnext, hends⟩ := ends_of_runIn halong hrun
    exact ⟨n, hnext, hends⟩
  · obtain ⟨hstops, hroom⟩ := stops_of_runIn halong hrun
    obtain ⟨hserial, hfits⟩ := Classical.not_imp.mp hroom
    rw [hconfig] at hfits
    exact ⟨hstops, hserial, Nat.lt_of_not_le hfits⟩
  · have hstep := config.timeStep_pos
    have hex : ∃ k, config.timeout.toNat ≤ k * config.timeStep :=
      ⟨config.timeout.toNat, Nat.le_mul_of_pos_right _ hstep⟩
    refine ⟨Nat.find hex, ⟨Nat.find_spec hex, fun k hk => Nat.find_min' hex hk⟩, ?_⟩
    have hheld (c : Bench M) (request : Option Cause)
        (hm : middleIn o schedule b (Nat.find hex) = some (c, request)) :
        triggered o schedule b (Nat.find hex) .timeout = true := by
      have hlatest : config.timeout.toNat ≤ Time.latest := Nat.le_pred_of_lt config.timeout.toNat_lt
      rw [triggered, hm, Option.any_some, hconfig, Bool.and_eq_true, bne_iff_ne, decide_eq_true_eq]
      exact ⟨hlimit, Nat.le_min.mpr ⟨Nat.find_spec hex, hlatest⟩⟩
    obtain ⟨n, hle, result, hrun, rfl | ⟨report, d, rfl⟩⟩ :=
      exists_outcome halong fun c request hm => ⟨_, hheld c request hm⟩
    · exact ⟨n, hle, .inr hrun⟩
    · obtain ⟨last, -, hlast, hends⟩ := ends_of_runIn halong hrun
      obtain rfl : n = last := Nat.succ.inj hlast
      refine ⟨n, hle, .inl ⟨report, d, hrun, ?_⟩⟩
      rw [hends.finalTime, hconfig]
      exact config.instant_mono hle

/-- A limit at the last instant, which is reached in two time steps. -/
def limited : Config :=
  { Config.standard with
    clock := { Config.standard.clock with timeStep := 0x8000000000000000 }
    timeout := 0xFFFFFFFFFFFFFFFF }

/-- The run ends in its third iteration, at the last instant.  The transmitter looks then for the
time one bit later, so that on a machine that does not wrap sums the program stops there. -/
theorem run_ends_limited :
    ∃ b report d, start ⟨fun _ _ => true, true, true⟩ limited .standard
        (Fixture.standard .standard) = .ok b ∧
      runIn .wraps quiet 0 b 9 = some (.ok (report, d, 2 + 1)) ∧ report.cause = .timeout ∧
        report.finalTime = 0xFFFFFFFFFFFFFFFF ∧ Ends .wraps quiet b 2 report d ∧
          runIn .stops quiet 0 b 9 = some (.error 2) := by
  have hrun : (start ⟨fun _ _ => true, true, true⟩ limited .standard
      (Fixture.standard Model.EchoSoc.standard)).toOption.bind
        (fun b => (runIn .wraps quiet 0 b 9).bind fun r => r.toOption.map fun r =>
          (r.1.cause, r.1.finalTime, r.2.2)) = some (.timeout, 0xFFFFFFFFFFFFFFFF, 2 + 1) := by
    decide +kernel
  have hstop : (start ⟨fun _ _ => true, true, true⟩ limited .standard
      (Fixture.standard Model.EchoSoc.standard)).toOption.bind
        (fun b => (runIn .stops quiet 0 b 9).map fun r => r.map fun r => r.2.2) =
          some (.error 2) := by
    decide +kernel
  obtain ⟨b, hb, hmap⟩ := Option.bind_eq_some_iff.mp hrun
  rw [hb, Option.bind_some, Option.map_eq_some_iff] at hstop
  obtain ⟨stopped, hstopped, hat⟩ := hstop
  obtain ⟨result, hresult, hmap⟩ := Option.bind_eq_some_iff.mp hmap
  obtain ⟨⟨report, d, next⟩, hok, heq⟩ := Option.map_eq_some_iff.mp hmap
  have hok : result = .ok (report, d, next) := eq_ok_of_toOption hok
  simp only [Prod.mk.injEq] at heq
  obtain ⟨hcause, hfinal, rfl⟩ := heq
  have hstart : start ⟨fun _ _ => true, true, true⟩ limited .standard
      (Fixture.standard Model.EchoSoc.standard) = .ok b := eq_ok_of_toOption hb
  have hrun : runIn .wraps quiet 0 b 9 = some (.ok (report, d, 2 + 1)) := by rw [hresult, hok]
  obtain ⟨n, hn, hends⟩ := (run_ends hstart quiet .wraps).2.1 9 report d _ hrun
  obtain rfl : 2 = n := Nat.succ.inj hn
  refine ⟨b, report, d, hstart, hrun, hcause, hfinal, hends, ?_⟩
  cases stopped with
  | ok => cases hat
  | error n =>
    obtain rfl : n = 2 := by simpa [Except.map] using hat
    exact hstopped

end PinBench.Bench
