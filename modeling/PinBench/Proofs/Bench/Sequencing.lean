import PinBench.Proofs.Bench.Ending
import PinBench.Proofs.Pins.Ledger

/-! The clock and reset along a run.  What has been written to the clock, to reset and to the test
reset before each evaluation follows from the number of the iteration alone (`Sequenced`).  Until
reset is released the debug server serves nobody, and the lines of the probe keep the levels that
they were given at the start (`AtRest`). -/

namespace PinBench

namespace Net.Listener

/-- No client has been accepted. -/
structure Unvisited (l : Listener) : Prop where
  attached : l.attached = none
  parted : l.parted = []

theorem Unvisited.act {l l' : Listener} {action : ClientAction} (h : l.Unvisited)
    (hact : l.act action = .ok l') : l'.Unvisited := by
  have hknown (client : Nat) (f : Connection → Connection)
      (hk : act.known l client f = .ok l') : l'.Unvisited := by
    unfold act.known at hk
    split at hk
    · obtain rfl := Except.ok.inj hk
      exact ⟨by simp [update, h.attached], by simp [update, h.parted]⟩
    · cases hk
  cases action with
  | connect client =>
    simp only [Listener.act] at hact
    split at hact
    · obtain rfl := Except.ok.inj hact
      exact ⟨h.attached, h.parted⟩
    · cases hact
  | send client bytes => exact hknown client _ hact
  | close client => exact hknown client _ hact
  | abort client => exact hknown client _ hact
  | limit client room => exact hknown client _ hact

end Net.Listener

namespace Bench

variable {M : Type} [HardwareModel M] {around : Surroundings} {config : Config}
  {allocation : Gpio.Allocation} {f : Fixture M} {schedule : Schedule} {n : Nat}

/-- The bench of an iteration right before the model is evaluated. -/
def primed (b : Bench M) (arrivals : Arrivals) : Bench M :=
  (b.actAll arrivals.actions).releaseReset

/-! ### Stages before the release of reset -/

/-- While the model is held in reset, the probe does not tick. -/
theorem tickProbe_of_held {b : Bench M} (h : b.released = false) : b.tickProbe = (b, none) := by
  unfold tickProbe
  split
  · rw [h]
    rfl
  · rfl

theorem exchange_of_held {b : Bench M} (h : b.released = false) :
    Fixture.DrivesOnly (fun role => role = .uartRx ∨ role = .gpioIn) b.fixture
        b.exchange.1.fixture ∧
      b.exchange.1.probe = b.probe := by
  obtain ⟨serial, g, hserial, hg⟩ := tickSerial_frame b
  have hheld : b.tickSerial.released = false := by rw [hserial, h]
  obtain ⟨relay, k, hrelay, hk⟩ := tickRelay_eq b.tickSerial
  have hexchange : b.exchange.1.fixture = b.tickSerial.tickRelay.fixture ∧
      b.exchange.1.probe = b.tickSerial.tickRelay.probe := by
    simp only [exchange, tickOthers, tickProbe_of_held hheld, and_self]
  constructor
  · rw [hexchange.1, hrelay]
    rw [hserial] at hk ⊢
    exact (hg.mono fun _ hrole => .inl hrole).trans (hk.mono fun _ hrole => .inr hrole)
  · rw [hexchange.2, hrelay, hserial]

theorem exchange_keeps (b : Bench M) :
    b.exchange.1.config = b.config ∧ b.exchange.1.time = b.time ∧
      b.exchange.1.released = b.released := by
  obtain ⟨_, _, _, _, _, hexchange⟩ := exchange_frame b
  rw [hexchange]
  exact ⟨rfl, rfl, rfl⟩

/-! ### The clock and reset -/

variable {b c d : Bench (Logged M)}

/-- Before evaluation `n` the clock has taken `n` levels after its first one.  The reset lines have
taken their levels in reset, and the others once reset has been released, which is no earlier than
its time. -/
structure Sequenced (n : Nat) (c : Bench (Logged M)) : Prop where
  apart : c.fixture.Apart
  clock : c.fixture.Drove .clock ((List.range (n + 1)).map c.config.clockLevel)
  reset : c.fixture.Drove .reset
    ([c.config.reset.assertedLevel] ++ if c.released then [c.config.reset.releasedLevel] else [])
  testReset : c.fixture.Drove .jtagTrst ([false] ++ if c.released then [true] else [])
  timely : c.released = true → c.config.reset.releaseTime.toNat ≤ c.time.now

namespace Sequenced

/-- What drives neither the clock nor reset keeps the sequence. -/
theorem frame (h : c.Sequenced n) (roles : Role → Prop)
    (hfixture : Fixture.DrivesOnly roles c.fixture d.fixture) (hclock : ¬roles .clock)
    (hreset : ¬roles .reset) (htest : ¬roles .jtagTrst) (hconfig : d.config = c.config)
    (hreleased : d.released = c.released) (htime : c.time.now ≤ d.time.now) : d.Sequenced n where
  apart := h.apart.of_bindings hfixture.bindings
  clock := by
    rw [hconfig]
    exact h.clock.frame h.apart rfl hfixture hclock
  reset := by
    rw [hconfig, hreleased]
    exact h.reset.frame h.apart rfl hfixture hreset
  testReset := by
    rw [hreleased]
    exact h.testReset.frame h.apart rfl hfixture htest
  timely := by
    rw [hconfig, hreleased]
    exact fun hr => Nat.le_trans (h.timely hr) htime

theorem actAll (h : c.Sequenced n) (actions : List (Transport × Net.ClientAction)) :
    (c.actAll actions).Sequenced n := by
  obtain ⟨probe, relay, refused, hact, -⟩ := actAll_eq c actions
  rw [hact]
  exact h.frame (fun _ => False) .refl not_false not_false not_false rfl rfl (Nat.le_refl _)

theorem releaseReset (h : c.Sequenced n) : c.releaseReset.Sequenced n := by
  unfold Bench.releaseReset
  split
  · rename_i hrelease
    obtain ⟨hheld, hdue⟩ := hrelease
    have hreset : Fixture.DrivesOnly (· = .reset) c.fixture
        (c.fixture.drive .reset c.config.reset.releasedLevel) := .drive .refl _ _ rfl
    have htest : Fixture.DrivesOnly (· = .jtagTrst)
        (c.fixture.drive .reset c.config.reset.releasedLevel)
        ((c.fixture.drive .reset c.config.reset.releasedLevel).drive .jtagTrst true) :=
      .drive .refl _ _ rfl
    have hapart := h.apart.of_bindings hreset.bindings
    refine ⟨hapart.of_bindings htest.bindings, ?_, ?_, ?_, fun _ => hdue⟩
    · exact (h.clock.frame h.apart rfl hreset (by decide)).frame hapart rfl htest (by decide)
    · have hasserted : c.fixture.Drove .reset [c.config.reset.assertedLevel] := by
        have hlevels := h.reset
        rwa [hheld] at hlevels
      exact (hasserted.drive rfl _).frame hapart rfl htest (by decide)
    · have hlow : c.fixture.Drove .jtagTrst [false] := by
        have hlevels := h.testReset
        rwa [hheld] at hlevels
      exact (hlow.frame h.apart rfl hreset (by decide)).drive rfl true
  · exact h

/-- Reset is released once its time has come, and not before. -/
theorem released_releaseReset (h : c.Sequenced n) :
    c.releaseReset.released = decide (c.config.reset.releaseTime.toNat ≤ c.time.now) :=
  Bench.released_releaseReset h.timely

theorem primed (h : c.Sequenced n) (arrivals : Arrivals) : (c.primed arrivals).Sequenced n :=
  (h.actAll arrivals.actions).releaseReset

theorem settle (h : c.Sequenced n) : c.settle.Sequenced n where
  apart := h.apart.of_bindings rfl
  clock := h.clock.eval
  reset := h.reset.eval
  testReset := h.testReset.eval
  timely := h.timely

theorem midway (h : c.Sequenced n) (arrivals : Arrivals) : (c.midway arrivals).1.Sequenced n := by
  have hsettled : (c.primed arrivals).settle.Sequenced n := (h.primed arrivals).settle
  obtain ⟨hconfig, htime, hreleased⟩ := exchange_keeps (c.primed arrivals).settle
  refine hsettled.frame _ (exchange_drivesOnly _) ?_ ?_ ?_ hconfig hreleased
    (Nat.le_of_eq (congrArg Timebase.now htime.symm))
  · simp [isExchangeLine, isSideLine, Fixture.isProbeLine]
  · simp [isExchangeLine, isSideLine, Fixture.isProbeLine]
  · simp [isExchangeLine, isSideLine, Fixture.isProbeLine]

/-- On to the next evaluation. -/
theorem advance (h : c.Sequenced n) (hlevel : (!c.time.clock) = c.config.clockLevel (n + 1))
    (htime : c.time.now ≤ c.advance.time.now) : c.advance.Sequenced (n + 1) := by
  obtain ⟨counter, fixture, hadvance, hfixture⟩ := advance_eq c
  rw [hadvance] at htime ⊢
  have hclock : Fixture.DrivesOnly (· = .clock) c.fixture
      (c.fixture.drive .clock (!c.time.clock)) := .drive .refl _ _ rfl
  have hticked : Sequenced (n + 1) { c with fixture := c.fixture.drive .clock (!c.time.clock) } := by
    refine ⟨h.apart.of_bindings hclock.bindings, ?_, ?_, ?_, h.timely⟩
    · have hlevels : (List.range (n + 1 + 1)).map c.config.clockLevel =
          (List.range (n + 1)).map c.config.clockLevel ++ [!c.time.clock] := by
        rw [List.range_succ, List.map_append, hlevel]
        rfl
      show Fixture.Drove _ .clock ((List.range (n + 1 + 1)).map c.config.clockLevel)
      rw [hlevels]
      exact h.clock.drive rfl _
    · exact h.reset.frame h.apart rfl hclock (by decide)
    · exact h.testReset.frame h.apart rfl hclock (by decide)
  exact hticked.frame _ hfixture (by decide) (by decide) (by decide) rfl rfl htime

end Sequenced

/-! ### The probe in reset -/

/-- The debug server has accepted no client, and the lines of the probe have only ever been driven
to the levels from before the first request. -/
structure AtRest (c : Bench (Logged M)) : Prop where
  apart : c.fixture.Apart
  tck : c.fixture.Drove .jtagTck [true]
  tms : c.fixture.Drove .jtagTms [true]
  tdi : c.fixture.Drove .jtagTdi [false]
  unvisited : ∃ p, c.probe = some p ∧ p.server.listener.Unvisited

namespace AtRest

theorem frame (h : c.AtRest) (roles : Role → Prop)
    (hfixture : Fixture.DrivesOnly roles c.fixture d.fixture)
    (hroles : ∀ role, Fixture.isProbeLine role → ¬roles role) (hprobe : d.probe = c.probe) :
    d.AtRest where
  apart := h.apart.of_bindings hfixture.bindings
  tck := h.tck.frame h.apart rfl hfixture (hroles _ (.inl rfl))
  tms := h.tms.frame h.apart rfl hfixture (hroles _ (.inr (.inl rfl)))
  tdi := h.tdi.frame h.apart rfl hfixture (hroles _ (.inr (.inr rfl)))
  unvisited := by
    rw [hprobe]
    exact h.unvisited

theorem act (h : c.AtRest) {transport : Transport} {action : Net.ClientAction}
    (hact : c.act transport action = .ok d) : d.AtRest := by
  obtain ⟨p, hprobe, hunvisited⟩ := h.unvisited
  unfold Bench.act at hact
  split at hact
  · rename_i listener hlistener
    cases haccepted : listener.act action with
    | error e => simp [haccepted, Except.map] at hact
    | ok l =>
      simp only [haccepted, Except.map, Except.ok.injEq] at hact
      subst hact
      cases transport with
      | telemetry => exact h.frame (fun _ => False) .refl (fun _ _ => not_false) rfl
      | jtag =>
        rw [listener?, hprobe, Option.map_some, Option.some.injEq] at hlistener
        subst hlistener
        refine ⟨h.apart, h.tck, h.tms, h.tdi, { p with server := { p.server with listener := l } },
          ?_, hunvisited.act haccepted⟩
        rw [setListener, hprobe]
        rfl
  · cases hact

theorem actAll (h : c.AtRest) (actions : List (Transport × Net.ClientAction)) :
    (c.actAll actions).AtRest := by
  induction actions generalizing c with
  | nil => exact h
  | cons a actions ih =>
    simp only [Bench.actAll, List.foldl_cons]
    cases hact : c.act a.1 a.2 with
    | ok d => exact ih (h.act hact)
    | error e => exact ih (h.frame (d := { c with refused := c.refused ++ [e] })
        (fun _ => False) .refl (fun _ _ => not_false) rfl)

theorem settled (h : c.AtRest) (arrivals : Arrivals) : (c.settled arrivals).AtRest := by
  have hacted : (c.actAll arrivals.actions).AtRest := h.actAll arrivals.actions
  have hprimed : (c.primed arrivals).AtRest := by
    obtain ⟨_, _, hrelease⟩ := releaseReset_eq (c.actAll arrivals.actions)
    refine hacted.frame _ (releaseReset_drivesOnly _) ?_ ?_
    · rintro role (rfl | rfl | rfl) <;> simp [isResetLine]
    · rw [primed, hrelease]
  exact ⟨hprimed.apart.of_bindings rfl, hprimed.tck.eval, hprimed.tms.eval, hprimed.tdi.eval,
    hprimed.unvisited⟩

theorem exchange (h : c.AtRest) (hheld : c.released = false) : c.exchange.1.AtRest := by
  obtain ⟨hfixture, hprobe⟩ := exchange_of_held hheld
  refine h.frame _ hfixture ?_ hprobe
  rintro role (rfl | rfl | rfl) <;> simp

theorem advance (h : c.AtRest) : c.advance.AtRest := by
  obtain ⟨counter, fixture, hadvance, hfixture⟩ := advance_eq c
  rw [hadvance]
  have hclock : Fixture.DrivesOnly (fun role => role = .clock ∨ role = .gpioIn) c.fixture
      (c.fixture.drive .clock (!c.time.clock)) := .drive .refl _ _ (.inl rfl)
  refine h.frame _ (hclock.trans (hfixture.mono fun _ hrole => .inr hrole)) ?_ rfl
  rintro role (rfl | rfl | rfl) <;> simp

end AtRest

/-! ### The first levels -/

/-- The levels that are driven first, in order.  Clearing the inputs drives them all low. -/
def firstLevels (config : Config) (serial probe : Bool) : List (Role × Bool) :=
  [(.clock, config.clock.startsHigh), (.reset, config.reset.assertedLevel), (.jtagTrst, false),
    (.gpioIn, false)] ++
  (if serial then [(.uartRx, true)] else []) ++
  if probe then
    [(.jtagTck, Jtag.Lines.idle.tck), (.jtagTms, Jtag.Lines.idle.tms),
      (.jtagTdi, Jtag.Lines.idle.tdi)]
  else []

theorem driveFirst_eq_driveAll (config : Config) (serial probe : Bool) (f : Fixture M) :
    driveFirst config serial probe f = f.driveAll (firstLevels config serial probe) := by
  have hclear (g : Fixture M) : g.write .gpioIn 0 = g.drive .gpioIn false := rfl
  cases serial <;> cases probe <;>
    simp only [driveFirst, hclear, Serial.Link.attach, Jtag.Probe.attach, Fixture.driveAll,
      firstLevels, if_true, Bool.false_eq_true, if_false, List.cons_append, List.nil_append,
      List.append_nil, List.foldl_cons, List.foldl_nil]

/-- Each of these roles is driven once. -/
theorem levelsFor_firstLevels (config : Config) (serial probe : Bool) :
    Fixture.levelsFor .clock (firstLevels config serial probe) = [config.clock.startsHigh] ∧
    Fixture.levelsFor .reset (firstLevels config serial probe) = [config.reset.assertedLevel] ∧
    Fixture.levelsFor .jtagTrst (firstLevels config serial probe) = [false] ∧
    Fixture.levelsFor .jtagTck (firstLevels config serial true) = [true] ∧
    Fixture.levelsFor .jtagTms (firstLevels config serial true) = [true] ∧
    Fixture.levelsFor .jtagTdi (firstLevels config serial true) = [false] := by
  cases serial <;> cases probe <;> exact ⟨rfl, rfl, rfl, rfl, rfl, rfl⟩

theorem drove_driveFirst (role : Role) (config : Config) (serial probe : Bool) (hapart : f.Apart)
    (hdir : role.direction = .hostDriven) :
    (driveFirst config serial probe f.logged).Drove role
      (Fixture.levelsFor role (firstLevels config serial probe)) := by
  rw [driveFirst_eq_driveAll]
  exact (Fixture.drove_logged f role).driveAll (hapart.of_bindings rfl) hdir _

theorem apart_driveFirst (config : Config) (serial probe : Bool) (hapart : f.Apart) :
    (driveFirst config serial probe f.logged).Apart := by
  obtain ⟨g, hg, hfirst⟩ := driveFirst_eq config serial probe f.logged
  have hbindings : (driveFirst config serial probe f.logged).bindings = f.bindings := by
    rw [hfirst.bindings, Fixture.write_bindings, hg.bindings]
    rfl
  exact hapart.of_bindings hbindings

theorem sequenced_start (hstart : start around config allocation f.logged = .ok b)
    (hapart : f.Apart) : b.Sequenced 0 := by
  obtain ⟨serial, probe, relay, recorder, -, -, -, -, rfl⟩ := eq_of_start hstart
  obtain ⟨hclock, hreset, htest, -⟩ :=
    levelsFor_firstLevels config serial.isSome probe.isSome
  have hfirst : config.clockLevel 0 = config.clock.startsHigh := Bool.xor_false _
  have hdrove (role : Role) (hdir : role.direction = .hostDriven) :=
    drove_driveFirst role config serial.isSome probe.isSome hapart hdir
  refine ⟨apart_driveFirst config _ _ hapart, ?_, ?_, ?_, fun hreleased => nomatch hreleased⟩
  · show Fixture.Drove _ .clock [config.clockLevel 0]
    rw [hfirst, ← hclock]
    exact hdrove .clock rfl
  · show Fixture.Drove _ .reset [config.reset.assertedLevel]
    rw [← hreset]
    exact hdrove .reset rfl
  · show Fixture.Drove _ .jtagTrst [false]
    rw [← htest]
    exact hdrove .jtagTrst rfl

theorem atRest_start (hstart : start around config allocation f.logged = .ok b)
    (hapart : f.Apart) (henabled : config.jtag.enabled = true) : b.AtRest := by
  obtain ⟨serial, probe, relay, recorder, -, hprobe, -, -, rfl⟩ := eq_of_start hstart
  obtain rfl := startProbe_eq hprobe henabled
  obtain ⟨-, -, -, htck, htms, htdi⟩ := levelsFor_firstLevels config serial.isSome true
  have hdrove (role : Role) (hdir : role.direction = .hostDriven) :=
    drove_driveFirst role config serial.isSome true hapart hdir
  refine ⟨apart_driveFirst config _ _ hapart, ?_, ?_, ?_, _, rfl, rfl, rfl⟩
  · rw [← htck]
    exact hdrove .jtagTck rfl
  · rw [← htms]
    exact hdrove .jtagTms rfl
  · rw [← htdi]
    exact hdrove .jtagTdi rfl

/-! ### Whole runs -/

theorem course_sequenced (hb : b.Sequenced 0) (htime : b.time = .start b.config.clock.startsHigh)
    (schedule : Schedule) (n : Nat) : (course schedule b n).Sequenced n := by
  induction n with
  | zero => exact hb
  | succ n ih =>
    have hmiddle : (middle schedule b n).1.Sequenced n := ih.midway (schedule n)
    have hnow := middle_time schedule b n
    have hnext : (middle schedule b n).1.advance.time =
        ⟨b.config.instant (n + 1), b.config.clockLevel (n + 1), false⟩ :=
      course_time htime schedule (n + 1)
    refine hmiddle.advance ?_ ?_
    · rw [hnow, course_time htime, middle_config, Config.clockLevel_succ]
    · rw [hnow, course_time htime, hnext]
      exact b.config.instant_mono (Nat.le_succ n)

/-- Reset is due in iteration `n` if it has been reached by the multiples of the time step. -/
theorem due_iff (c : Config) (n : Nat) :
    c.reset.releaseTime.toNat ≤ c.instant n ↔ c.reset.releaseTime.toNat ≤ n * c.timeStep := by
  have hlatest : c.reset.releaseTime.toNat ≤ Time.latest :=
    Nat.le_sub_one_of_lt c.reset.releaseTime.toNat_lt_size
  rw [Config.instant, Nat.le_min]
  exact and_iff_left hlatest

theorem primed_released (hb : b.Sequenced 0) (htime : b.time = .start b.config.clock.startsHigh)
    (schedule : Schedule) (n : Nat) :
    ((course schedule b n).primed (schedule n)).released =
      decide (b.config.reset.releaseTime.toNat ≤ n * b.config.timeStep) := by
  have hreleased := ((course_sequenced hb htime schedule n).actAll
    (schedule n).actions).released_releaseReset
  obtain ⟨_, _, _, hact, -⟩ := actAll_eq (course schedule b n) (schedule n).actions
  have hconfig : ((course schedule b n).actAll (schedule n).actions).config = b.config := by
    rw [hact]
    exact course_config schedule b n
  have hnow : ((course schedule b n).actAll (schedule n).actions).time.now =
      b.config.instant n := by
    rw [hact]
    exact congrArg Timebase.now (course_time htime schedule n)
  rw [primed, hreleased, hconfig, hnow, decide_eq_decide]
  exact due_iff b.config n

theorem course_atRest (hrest : b.AtRest) (hb : b.Sequenced 0)
    (htime : b.time = .start b.config.clock.startsHigh)
    (hbefore : ∀ k < n, k * b.config.timeStep < b.config.reset.releaseTime.toNat) :
    (course schedule b n).AtRest := by
  induction n with
  | zero => exact hrest
  | succ n ih =>
    have hcourse : (course schedule b n).AtRest := ih fun k hk => hbefore k (Nat.lt_succ_of_lt hk)
    -- Reset is not due in iteration `n`, so the probe does not tick in it.
    have hheld : ((course schedule b n).settled (schedule n)).released = false := by
      show ((course schedule b n).primed (schedule n)).released = false
      rw [primed_released hb htime]
      exact decide_eq_false (Nat.not_le_of_lt (hbefore n (Nat.lt_succ_self n)))
    exact ((hcourse.settled (schedule n)).exchange hheld).advance

theorem evals_course (b : Bench (Logged M)) (schedule : Schedule) (n : Nat) :
    (course schedule b n).fixture.model.evals = b.fixture.model.evals + n := by
  induction n with
  | zero => rfl
  | succ n ih =>
    show (middle schedule b n).1.advance.fixture.model.evals = _
    rw [evals_advance, middle, (midway_fixture _ _).evals, ih, Nat.add_assoc]

theorem evals_start (hstart : start around config allocation f.logged = .ok b) :
    b.fixture.model.evals = 0 := by
  obtain ⟨serial, probe, _, _, -, -, -, -, rfl⟩ := eq_of_start hstart
  obtain ⟨g, hg, hfirst⟩ := driveFirst_eq config serial.isSome probe.isSome f.logged
  have hclear : Fixture.DrivesOnly (fun _ => True) g (g.write .gpioIn 0) := .write _ _ .refl trivial
  have hall : Fixture.DrivesOnly (fun _ => True) f.logged
      (driveFirst config serial.isSome probe.isSome f.logged) :=
    (hg.mono fun _ _ => trivial).trans (hclear.trans (hfirst.mono fun _ _ => trivial))
  exact hall.view fun _ _ _ _ _ m value => Logged.evals_write m _ value

theorem evals_primed (c : Bench (Logged M)) (arrivals : Arrivals) :
    (c.primed arrivals).fixture.model.evals = c.fixture.model.evals := by
  obtain ⟨_, _, _, hact, -⟩ := actAll_eq c arrivals.actions
  rw [primed, (releaseReset_drivesOnly _).view fun _ _ _ _ _ m value => Logged.evals_write m _ value,
    hact]

/-- Right before evaluation `n` of a run the clock line was driven last to its first level or, for
odd `n`, to the other one, and the reset lines show whether the release time has come.  Until the
evaluation of the iteration in which it comes, the debug server has accepted nobody and its lines
have kept their first levels. -/
theorem clock_and_reset_sequenced (hstart : start around config allocation f.logged = .ok b)
    (hapart : f.Apart) (hc : Reaches schedule b n c) :
    (c.primed (schedule n)).fixture.model.evals = n ∧
    (c.primed (schedule n)).fixture.LastDrove .clock (config.clock.startsHigh ^^ decide (n % 2 = 1)) ∧
    (c.primed (schedule n)).fixture.LastDrove .reset
      (if n * config.timeStep < config.reset.releaseTime.toNat then config.reset.assertedLevel
        else config.reset.releasedLevel) ∧
    (c.primed (schedule n)).fixture.LastDrove .jtagTrst
      (decide (config.reset.releaseTime.toNat ≤ n * config.timeStep)) ∧
    (config.jtag.enabled = true →
      (∀ k < n, k * config.timeStep < config.reset.releaseTime.toNat) →
        (c.settled (schedule n)).AtRest) := by
  have hconfig := start_config hstart
  have htime := start_time hstart
  have hb := sequenced_start hstart hapart
  obtain ⟨rfl, -⟩ := reaches_iff.mp hc
  have hprimed := (course_sequenced hb htime schedule n).primed (schedule n)
  have hreleased := primed_released hb htime schedule n
  have hsame : ((course schedule b n).primed (schedule n)).config = config := by
    obtain ⟨_, _, _, hact, -⟩ := actAll_eq (course schedule b n) (schedule n).actions
    obtain ⟨_, _, hrelease⟩ := releaseReset_eq ((course schedule b n).actAll (schedule n).actions)
    rw [primed, hrelease, hact]
    exact (course_config schedule b n).trans hconfig
  rw [hconfig] at hreleased
  refine ⟨?_, ?_, ?_, ?_, ?_⟩
  · rw [evals_primed, evals_course, evals_start hstart, Nat.zero_add]
  · have hclock := hprimed.clock
    rw [List.range_succ, List.map_append, hsame] at hclock
    exact hclock.last
  · have hreset := hprimed.reset
    rw [hreleased, hsame] at hreset
    split
    · rename_i hearly
      rw [decide_eq_false (Nat.not_le_of_lt hearly)] at hreset
      exact hreset.last_singleton
    · rename_i hdue
      rw [decide_eq_true (Nat.le_of_not_lt hdue)] at hreset
      exact hreset.last
  · have htest := hprimed.testReset
    rw [hreleased] at htest
    cases hdue : decide (config.reset.releaseTime.toNat ≤ n * config.timeStep) with
    | false =>
      rw [hdue] at htest
      exact htest.last_singleton
    | true =>
      rw [hdue] at htest
      exact htest.last
  · intro henabled hbefore
    rw [← hconfig] at hbefore
    exact (course_atRest (atRest_start hstart hapart henabled) hb htime hbefore).settled (schedule n)

omit [HardwareModel M] in
theorem apart_standard (m : Model.EchoSoc) : (Fixture.standard m).Apart := by
  intro role binding _ hbinding other hne _ binding' hother hsignal
  rw [Fixture.wired_standard, Option.some.injEq] at hbinding hother
  subst hbinding hother
  exact hne (Role.index_inj (Fin.ext hsignal))

/-- An active-low reset that is released at 15, between two multiples of the time step, with the
debug server. -/
def heldBack : Config :=
  { Config.standard with
    reset := ⟨15, false⟩
    jtag := { Config.standard.jtag with enabled := true } }

/-- A client connects to the debug server at once. -/
def earlyClient : Schedule := fun n =>
  if n = 0 then ⟨[(.jtag, .connect 1)], false⟩ else ⟨[], false⟩

/-- Reset is released in iteration 2, and the client has still not been accepted when the model has
been evaluated. -/
theorem clock_and_reset_sequenced_heldBack :
    ∃ b c, start ⟨fun _ _ => true, true, true⟩ heldBack .standard
        (Fixture.standard .standard).logged = .ok b ∧
      (Fixture.standard .standard).Apart ∧ Reaches earlyClient b 2 c ∧
      (c.primed (earlyClient 2)).fixture.model.evals = 2 ∧
      (c.primed (earlyClient 2)).fixture.LastDrove .clock true ∧
      (c.primed (earlyClient 2)).fixture.LastDrove .reset true ∧
      (c.primed (earlyClient 2)).fixture.LastDrove .jtagTrst true ∧
      heldBack.jtag.enabled = true ∧
      (∀ k < 2, k * heldBack.timeStep < heldBack.reset.releaseTime.toNat) ∧
      (c.settled (earlyClient 2)).AtRest := by
  have hrun : ((start ⟨fun _ _ => true, true, true⟩ heldBack .standard
      (Fixture.standard Model.EchoSoc.standard).logged).toOption.map fun b =>
        (List.range 2).map (causeAt? earlyClient b)) = some (List.replicate 2 none) := by
    decide +kernel
  obtain ⟨b, hb, hcauses⟩ := Option.map_eq_some_iff.mp hrun
  have hstart := eq_ok_of_toOption hb
  have hreaches : Reaches earlyClient b 2 (course earlyClient b 2) := reaches_course hcauses
  have henabled : heldBack.jtag.enabled = true := rfl
  have hbefore : ∀ k < 2, k * heldBack.timeStep < heldBack.reset.releaseTime.toNat := by decide
  obtain ⟨hevals, hclock, hreset, htest, hrest⟩ :=
    clock_and_reset_sequenced hstart (apart_standard _) hreaches
  exact ⟨b, _, hstart, apart_standard _, hreaches, hevals, hclock, hreset, htest, henabled, hbefore,
    hrest henabled hbefore⟩

end Bench

end PinBench
