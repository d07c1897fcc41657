import PinBench.Proofs.Bench.Stages

/-! The course of a run: the benches that it goes through as long as nothing ends it.  A run is its
course up to the first iteration that has a cause to end (`run_eq_some_iff`).  Along the course the
configuration stays as it is, time grows by one time step in each iteration until it stops at the
last instant, and the clock changes its level every time. -/

namespace PinBench

/-- The level of the clock line after some changes. -/
def Config.clockLevel (c : Config) (changes : Nat) : Bool :=
  c.clock.startsHigh ^^ decide (changes % 2 = 1)

theorem Config.clockLevel_succ (c : Config) (changes : Nat) :
    c.clockLevel (changes + 1) = !c.clockLevel changes := by
  have hparity : decide ((changes + 1) % 2 = 1) = !decide (changes % 2 = 1) := by
    rw [← decide_not, decide_eq_decide]
    omega
  rw [clockLevel, hparity, clockLevel, Bool.xor_not]

/-- The time of iteration `n`. -/
def Config.instant (c : Config) (n : Nat) : Time := min (n * c.timeStep) Time.latest

theorem Config.instant_mono (c : Config) {m n : Nat} (h : m ≤ n) : c.instant m ≤ c.instant n := by
  have hcap : ∀ a b cap : Nat, a ≤ b → min a cap ≤ min b cap := by
    intro a b cap hab
    omega
  exact hcap _ _ _ (Nat.mul_le_mul_right _ h)

theorem Config.timeStep_pos (c : Config) : 0 < c.timeStep :=
  Nat.lt_of_lt_of_le Nat.zero_lt_one (Nat.le_max_right _ _)

namespace Bench

variable {M : Type} [HardwareModel M] {around : Surroundings} {config : Config}
  {allocation : Gpio.Allocation} {f : Fixture M} {b c d : Bench M} {schedule : Schedule} {n : Nat}

/-! ### Starting -/

theorem eq_ok_of_toOption {ε α : Type} {result : Except ε α} {a : α}
    (h : result.toOption = some a) : result = .ok a := by
  cases result with
  | error e => cases h
  | ok other => exact congrArg Except.ok (Option.some.inj h)

theorem eq_of_start (h : start around config allocation f = .ok b) :
    ∃ serial probe relay recorder,
      startSerial config f = .ok serial ∧ startProbe around config f = .ok probe ∧
        startRelay around config allocation f = .ok relay ∧
        startRecorder around config f = .ok recorder ∧
        b = { config, serial, probe, relay, recorder
              fixture := driveFirst config serial.isSome probe.isSome f
              time := .start config.clock.startsHigh
              counter := startCounter config allocation f
              monitor := .start, released := false, down := false, refused := [] } := by
  unfold start at h
  cases hrequire : requireAll f [.clock, .reset] with
  | error e => simp [hrequire, bind, Except.bind] at h
  | ok _ =>
    cases hserial : startSerial config f with
    | error e => simp [hrequire, hserial, bind, Except.bind] at h
    | ok serial =>
      cases hprobe : startProbe around config f with
      | error e => simp [hrequire, hserial, hprobe, bind, Except.bind] at h
      | ok probe =>
        cases hrelay : startRelay around config allocation f with
        | error e => simp [hrequire, hserial, hprobe, hrelay, bind, Except.bind] at h
        | ok relay =>
          cases hrecorder : startRecorder around config f with
          | error e => simp [hrequire, hserial, hprobe, hrelay, hrecorder, bind, Except.bind] at h
          | ok recorder =>
            simp only [hrequire, hserial, hprobe, hrelay, hrecorder, bind, Except.bind, pure,
              Except.pure, Except.ok.injEq] at h
            exact ⟨serial, probe, relay, recorder, rfl, rfl, rfl, rfl, h.symm⟩

theorem start_of_parts {serial : Option Serial.Link} {probe : Option Jtag.Probe}
    {relay : Option (Telemetry.Relay Telemetry.Server)} {recorder : Option Wave.Recorder}
    (hrequire : requireAll f [.clock, .reset] = .ok ()) (hserial : startSerial config f = .ok serial)
    (hprobe : startProbe around config f = .ok probe)
    (hrelay : startRelay around config allocation f = .ok relay)
    (hrecorder : startRecorder around config f = .ok recorder) :
    start around config allocation f = .ok
      { config, serial, probe, relay, recorder
        fixture := driveFirst config serial.isSome probe.isSome f
        time := .start config.clock.startsHigh
        counter := startCounter config allocation f
        monitor := .start, released := false, down := false, refused := [] } := by
  rw [start, hrequire, hserial, hprobe, hrelay, hrecorder]
  rfl

theorem requireAll_of_start (h : start around config allocation f = .ok b) :
    requireAll f [.clock, .reset] = .ok () := by
  unfold start at h
  cases hrequire : requireAll f [.clock, .reset] with
  | error e => simp [hrequire, bind, Except.bind] at h
  | ok _ => rfl

omit [HardwareModel M] in
theorem startSerial_eq {serial : Option Serial.Link} (h : startSerial config f = .ok serial) :
    serial = if f.bound .uartRx && f.bound .uartTx then
      some (.start config.uart.baudRate config.uart.script)
    else none := by
  unfold startSerial at h
  cases hscript : config.uart.script.isEmpty with
  | true =>
    rw [hscript] at h
    exact (Except.ok.inj h).symm
  | false =>
    rw [hscript] at h
    cases hroles : requireAll f [.uartRx, .uartTx] with
    | error e => simp [hroles, bind, Except.bind] at h
    | ok _ =>
      rw [hroles] at h
      exact (Except.ok.inj h).symm

omit [HardwareModel M] in
theorem startProbe_eq {probe : Option Jtag.Probe} (h : startProbe around config f = .ok probe)
    (henabled : config.jtag.enabled = true) :
    probe = some
      ⟨.listen (if config.jtag.loopbackOnly then .loopback else .any) around.reachable,
        .every config.jtag.divisor.toNat config.clock.timeStep.toNat⟩ := by
  unfold startProbe at h
  rw [if_pos henabled] at h
  cases hroles : requireAll f [.jtagTck, .jtagTms, .jtagTdi, .jtagTdo] with
  | error e => simp [hroles, bind, Except.bind] at h
  | ok _ =>
    cases hfree : around.portFree .jtag config.jtag.port with
    | false => simp [hroles, hfree, bind, Except.bind, throw, throwThe, MonadExceptOf.throw] at h
    | true =>
      simp only [hroles, hfree, bind, Except.bind, if_true, pure, Except.pure,
        Except.ok.injEq] at h
      exact h.symm

omit [HardwareModel M] in
theorem startRelay_eq {relay : Option (Telemetry.Relay Telemetry.Server)}
    (h : startRelay around config allocation f = .ok relay) :
    relay = if config.telemetry.enabled then
      some (.start (.listen around.reachable)
        ((allocation.range? .telemetry).getD ⟨.telemetry, 0, 0⟩)
        config.telemetry.pollInterval.toNat)
    else none := by
  unfold startRelay at h
  split at h
  · rename_i henabled
    rw [if_pos henabled]
    cases hroles : requireAll f [.gpioIn, .gpioOut] with
    | error e => simp [hroles, bind, Except.bind] at h
    | ok _ =>
      cases hport : telemetryPortFree around config with
      | false => simp [hroles, hport, bind, Except.bind, throw, throwThe, MonadExceptOf.throw] at h
      | true =>
        simp only [hroles, hport, bind, Except.bind, pure, Except.pure, if_true,
          Except.ok.injEq] at h
        exact h.symm
  · rename_i hdisabled
    rw [if_neg hdisabled]
    exact (Except.ok.inj h).symm

/-! ### One iteration after another -/

/-- The bench right after the model has settled in an iteration. -/
def settled (b : Bench M) (arrivals : Arrivals) : Bench M :=
  (b.actAll arrivals.actions).releaseReset.settle

theorem settled_eq (b : Bench M) (arrivals : Arrivals) :
    ∃ probe relay recorder released refused fixture, b.settled arrivals =
      { b with probe, relay, recorder, released, refused, fixture } := by
  obtain ⟨probe, relay, refused, hact, -⟩ := actAll_eq b arrivals.actions
  obtain ⟨fixture, released, hrelease⟩ := releaseReset_eq (b.actAll arrivals.actions)
  refine ⟨probe, relay, (b.settled arrivals).recorder, released, refused,
    (b.settled arrivals).fixture, ?_⟩
  rw [settled, hrelease, hact, settle]

/-- The bench right before iteration `n`, if nothing ends the run before. -/
def course (schedule : Schedule) (b : Bench M) : Nat → Bench M
  | 0 => b
  | n + 1 => ((course schedule b n).midway (schedule n)).1.advance

/-- What iteration `n` comes to: the bench when it looks for a cause to end, and what the probe asks
for. -/
def middle (schedule : Schedule) (b : Bench M) (n : Nat) : Bench M × Option Cause :=
  (course schedule b n).midway (schedule n)

/-- The cause that iteration `n` has to end, if it has one. -/
def causeAt? (schedule : Schedule) (b : Bench M) (n : Nat) : Option Cause :=
  (middle schedule b n).1.cause? (schedule n).stop (middle schedule b n).2

/-- The bench after a run that ends with iteration `n`, before it is shut down. -/
def ended (schedule : Schedule) (b : Bench M) (n : Nat) : Bench M :=
  { (middle schedule b n).1 with time := (middle schedule b n).1.time.finish }

theorem turn_course_of_none (h : causeAt? schedule b n = none) :
    (course schedule b n).turn (schedule n) = (course schedule b (n + 1), none) :=
  turn_of_none h

theorem turn_course_of_cause {cause : Cause} (h : causeAt? schedule b n = some cause) :
    (course schedule b n).turn (schedule n) = (ended schedule b n, some cause) :=
  turn_of_cause h

theorem reaches_iff : Reaches schedule b n c ↔
    c = course schedule b n ∧ ∀ m < n, causeAt? schedule b m = none := by
  constructor
  · intro h
    induction h with
    | start => exact ⟨rfl, fun m hm => absurd hm (Nat.not_lt_zero m)⟩
    | @turn n c d _ hturn ih =>
      obtain ⟨rfl, hbefore⟩ := ih
      cases hcause : causeAt? schedule b n with
      | some cause =>
        rw [turn_course_of_cause hcause] at hturn
        cases hturn
      | none =>
        rw [turn_course_of_none hcause, Prod.mk.injEq] at hturn
        refine ⟨hturn.1.symm, fun m hm => ?_⟩
        rcases Nat.lt_succ_iff_lt_or_eq.mp hm with hlt | rfl
        · exact hbefore m hlt
        · exact hcause
  · rintro ⟨rfl, hbefore⟩
    induction n with
    | zero => exact .start
    | succ n ih =>
      exact (ih fun m hm => hbefore m (Nat.lt_succ_of_lt hm)).turn
        (turn_course_of_none (hbefore n (Nat.lt_succ_self n)))

theorem reaches_course (h : (List.range n).map (causeAt? schedule b) = List.replicate n none) :
    Reaches schedule b n (course schedule b n) := by
  refine reaches_iff.mpr ⟨rfl, fun m hm => ?_⟩
  have hmem : causeAt? schedule b m ∈ (List.range n).map (causeAt? schedule b) :=
    List.mem_map_of_mem (List.mem_range.mpr hm)
  rw [h] at hmem
  exact List.eq_of_mem_replicate hmem

/-! ### Whole runs -/

/-- Iterations from number `n` of a course end with the first one that has a cause. -/
theorem runFrom_eq_some_iff {fuel last : Nat} {cause : Cause} :
    runFrom schedule n (course schedule b n) fuel = some (d, cause, last) ↔
      n ≤ last ∧ last < n + fuel ∧ (∀ m, n ≤ m → m < last → causeAt? schedule b m = none) ∧
        causeAt? schedule b last = some cause ∧ d = ended schedule b last := by
  induction fuel generalizing n with
  | zero =>
    simp only [runFrom, reduceCtorEq, false_iff]
    omega
  | succ fuel ih =>
    cases hcause : causeAt? schedule b n with
    | none =>
      rw [runFrom, turn_course_of_none hcause, ih]
      constructor
      · rintro ⟨hle, hlt, hbefore, hlast, rfl⟩
        refine ⟨by omega, by omega, fun m hm hml => ?_, hlast, rfl⟩
        rcases Nat.eq_or_lt_of_le hm with rfl | hm'
        · exact hcause
        · exact hbefore m hm' hml
      · rintro ⟨hle, hlt, hbefore, hlast, rfl⟩
        have hne : n ≠ last := by
          rintro rfl
          rw [hcause] at hlast
          cases hlast
        exact ⟨by omega, by omega, fun m hm => hbefore m (by omega), hlast, rfl⟩
    | some first =>
      simp only [runFrom, turn_course_of_cause hcause, Option.some.injEq, Prod.mk.injEq]
      constructor
      · rintro ⟨rfl, rfl, rfl⟩
        exact ⟨Nat.le_refl _, by omega, fun m hm hml => by omega, hcause, rfl⟩
      · rintro ⟨hle, -, hbefore, hlast, rfl⟩
        have hsame : last = n := by
          refine Nat.le_antisymm (Nat.le_of_not_lt fun hlt => ?_) hle
          rw [hbefore n (Nat.le_refl n) hlt] at hcause
          cases hcause
        subst hsame
        rw [hcause, Option.some.injEq] at hlast
        exact ⟨rfl, hlast, rfl⟩

theorem run_eq_some_iff {fuel next : Nat} {report : Report} :
    run schedule 0 b fuel = some (report, d, next) ↔
      ∃ n < fuel, next = n + 1 ∧ (∀ m < n, causeAt? schedule b m = none) ∧
        causeAt? schedule b n = some report.cause ∧
        (report, d) = (ended schedule b n).conclude report.cause := by
  have hcourse : runFrom schedule 0 b fuel = runFrom schedule 0 (course schedule b 0) fuel := rfl
  rw [run, hcourse, Option.map_eq_some_iff]
  constructor
  · rintro ⟨⟨e, cause, n⟩, hrun, heq⟩
    obtain ⟨-, hlt, hbefore, hcause, rfl⟩ := runFrom_eq_some_iff.mp hrun
    simp only [conclude, Prod.mk.injEq] at heq
    obtain ⟨rfl, rfl, rfl⟩ := heq
    exact ⟨n, by omega, rfl, fun m hm => hbefore m (Nat.zero_le m) hm, hcause, rfl⟩
  · rintro ⟨n, hlt, rfl, hbefore, hcause, heq⟩
    refine ⟨(ended schedule b n, report.cause, n), ?_, ?_⟩
    · exact runFrom_eq_some_iff.mpr
        ⟨Nat.zero_le n, by omega, fun m _ hm => hbefore m hm, hcause, rfl⟩
    · rw [Prod.mk.injEq] at heq
      simp only [← heq.1, ← heq.2]

/-! ### Time along the course -/

theorem course_config (schedule : Schedule) (b : Bench M) (n : Nat) :
    (course schedule b n).config = b.config := by
  induction n with
  | zero => rfl
  | succ n ih =>
    obtain ⟨counter, fixture, hadvance, -⟩ := advance_eq (middle schedule b n).1
    have hsucc : course schedule b (n + 1) = _ := hadvance
    rw [hsucc]
    exact (midway_eq _ _).1.trans ih

theorem course_time (htime : b.time = .start b.config.clock.startsHigh) (schedule : Schedule)
    (n : Nat) :
    (course schedule b n).time = ⟨b.config.instant n, b.config.clockLevel n, false⟩ := by
  induction n with
  | zero => simp [course, htime, Timebase.start, Config.clockLevel, Config.instant]
  | succ n ih =>
    obtain ⟨counter, fixture, hadvance, -⟩ := advance_eq (middle schedule b n).1
    have hsucc : course schedule b (n + 1) = _ := hadvance
    obtain ⟨hconfig, hmiddle, -⟩ := midway_eq (course schedule b n) (schedule n)
    have hadd : Time.after (b.config.instant n) b.config.timeStep = b.config.instant (n + 1) := by
      rw [Config.instant, Config.instant, Nat.succ_mul]
      exact Time.after_min _ _
    rw [hsucc]
    show (middle schedule b n).1.time.toggle.advance (middle schedule b n).1.config.timeStep = _
    rw [middle, hmiddle, hconfig, course_config, ih, Config.clockLevel_succ, ← hadd]
    rfl

theorem middle_config (schedule : Schedule) (b : Bench M) (n : Nat) :
    (middle schedule b n).1.config = b.config :=
  (midway_eq _ _).1.trans (course_config schedule b n)

theorem middle_time (schedule : Schedule) (b : Bench M) (n : Nat) :
    (middle schedule b n).1.time = (course schedule b n).time :=
  (midway_eq _ _).2.1

/-! ### The release of reset along the course -/

/-- Reset is released once its time has come, and not before. -/
theorem released_releaseReset
    (h : b.released = true → b.config.reset.releaseTime.toNat ≤ b.time.now) :
    b.releaseReset.released = decide (b.config.reset.releaseTime.toNat ≤ b.time.now) := by
  unfold releaseReset
  split
  · rename_i hrelease
    exact (decide_eq_true hrelease.2).symm
  · rename_i hnot
    cases hreleased : b.released with
    | true => exact (decide_eq_true (h hreleased)).symm
    | false => exact (decide_eq_false fun hdue => hnot ⟨hreleased, hdue⟩).symm

theorem settled_released (h : b.released = true → b.config.reset.releaseTime.toNat ≤ b.time.now)
    (arrivals : Arrivals) : (b.settled arrivals).released =
      decide (b.config.reset.releaseTime.toNat ≤ b.time.now) := by
  obtain ⟨probe, relay, refused, hact, -, -⟩ := actAll_eq b arrivals.actions
  show (b.actAll arrivals.actions).releaseReset.released = _
  rw [hact]
  exact released_releaseReset (b := { b with probe, relay, refused }) h

theorem course_timely (hheld : b.released = false) (htime : b.time = .start b.config.clock.startsHigh)
    (schedule : Schedule) (n : Nat) : (course schedule b n).released = true →
      b.config.reset.releaseTime.toNat ≤ b.config.instant n := by
  induction n with
  | zero => exact fun hr => nomatch hheld.symm.trans hr
  | succ n ih =>
    intro hr
    obtain ⟨_, _, hadvance, -⟩ := advance_eq (middle schedule b n).1
    have hsucc : course schedule b (n + 1) = _ := hadvance
    obtain ⟨_, _, _, _, _, hexchange⟩ := exchange_frame ((course schedule b n).settled (schedule n))
    have hmiddle : (middle schedule b n).1 = _ := hexchange
    rw [hsucc, hmiddle] at hr
    have hnow : (course schedule b n).time.now = b.config.instant n := by rw [course_time htime]
    have hlevel : ((course schedule b n).settled (schedule n)).released = true := hr
    rw [settled_released (by rw [course_config, hnow]; exact ih), course_config, hnow] at hlevel
    exact Nat.le_trans (of_decide_eq_true hlevel) (b.config.instant_mono (Nat.le_succ n))

/-- In iteration `n` the model runs out of reset if the release time has come. -/
theorem course_released (hheld : b.released = false)
    (htime : b.time = .start b.config.clock.startsHigh) (schedule : Schedule) (n : Nat) :
    ((course schedule b n).settled (schedule n)).released =
      decide (b.config.reset.releaseTime.toNat ≤ b.config.instant n) := by
  have hnow : (course schedule b n).time.now = b.config.instant n := by rw [course_time htime]
  have htimely := course_timely hheld htime schedule n
  rw [settled_released (by rw [course_config, hnow]; exact htimely), course_config, hnow]

/-! ### The model along the course -/

/-- The roles that the release of reset drives. -/
def isResetLine (role : Role) : Prop := role = .reset ∨ role = .jtagTrst

def isExchangeLine (role : Role) : Prop := role = .uartRx ∨ isSideLine role

theorem releaseReset_drivesOnly (b : Bench M) :
    Fixture.DrivesOnly isResetLine b.fixture b.releaseReset.fixture := by
  unfold releaseReset
  split
  · exact (Fixture.DrivesOnly.refl.drive .reset _ (.inl rfl)).drive .jtagTrst _ (.inr rfl)
  · exact .refl

theorem tickSerial_drivesOnly (b : Bench M) :
    Fixture.DrivesOnly (· = .uartRx) b.fixture b.tickSerial.fixture := by
  obtain ⟨_, _, hserial, hfixture⟩ := tickSerial_frame b
  rw [hserial]
  exact hfixture

theorem exchange_drivesOnly (b : Bench M) :
    Fixture.DrivesOnly isExchangeLine b.fixture b.exchange.1.fixture := by
  obtain ⟨_, _, _, fixture, hexchange, hfixture, -⟩ := exchange_eq b
  rw [hexchange]
  exact ((tickSerial_drivesOnly b).mono fun _ h => .inl h).trans (hfixture.mono fun _ h => .inr h)

/-- What an iteration does to the model before it looks for a cause: it may release reset, it
evaluates the model once, and then it exchanges levels with it. -/
def Settles (f g : Fixture M) : Prop :=
  ∃ e, Fixture.DrivesOnly isResetLine f e ∧ Fixture.DrivesOnly isExchangeLine e.eval g

theorem settles_of_settled {arrivals : Arrivals} {g : Fixture M}
    (h : Fixture.DrivesOnly isExchangeLine (b.settled arrivals).fixture g) :
    Settles b.fixture g := by
  obtain ⟨_, _, _, hact, -⟩ := actAll_eq b arrivals.actions
  have hfixture : (b.actAll arrivals.actions).fixture = b.fixture := by rw [hact]
  refine ⟨(b.actAll arrivals.actions).releaseReset.fixture, ?_, h⟩
  rw [← hfixture]
  exact releaseReset_drivesOnly _

theorem Settles.bindings {f g : Fixture M} (h : Settles f g) : g.bindings = f.bindings := by
  obtain ⟨e, hrelease, hexchange⟩ := h
  have heval : e.eval.bindings = e.bindings := rfl
  rw [hexchange.bindings, heval, hrelease.bindings]

theorem midway_fixture (b : Bench M) (arrivals : Arrivals) :
    Settles b.fixture (b.midway arrivals).1.fixture :=
  settles_of_settled (exchange_drivesOnly (b.settled arrivals))

theorem advance_fixture (b : Bench M) :
    Fixture.DrivesOnly (· = .gpioIn) (b.fixture.drive .clock (!b.time.clock)) b.advance.fixture := by
  obtain ⟨_, _, hadvance, hfixture⟩ := advance_eq b
  rw [hadvance]
  exact hfixture

/-! ### The first bench -/

/-- The first levels: some roles are driven before the inputs are cleared and some after it. -/
theorem driveFirst_eq (config : Config) (serial probe : Bool) (f : Fixture M) :
    ∃ g, Fixture.DrivesOnly (fun role => role = .clock ∨ isResetLine role) f g ∧
      Fixture.DrivesOnly (fun role => role = .uartRx ∨ Fixture.isProbeLine role)
        (g.write .gpioIn 0) (driveFirst config serial probe f) := by
  obtain ⟨g, hg, heq⟩ : ∃ g, Fixture.DrivesOnly (fun role => role = .clock ∨ isResetLine role) f g ∧
      driveFirst config serial probe f =
        (if probe then Jtag.Probe.attach
            (if serial then Serial.Link.attach (g.write .gpioIn 0) else g.write .gpioIn 0)
          else if serial then Serial.Link.attach (g.write .gpioIn 0) else g.write .gpioIn 0) :=
    ⟨_, ((Fixture.DrivesOnly.refl.drive .clock _ (.inl rfl)).drive .reset _ (.inr (.inl rfl))).drive
      .jtagTrst _ (.inr (.inr rfl)), rfl⟩
  have hserial : Fixture.DrivesOnly (fun role => role = .uartRx ∨ Fixture.isProbeLine role)
      (g.write .gpioIn 0)
      (if serial then Serial.Link.attach (g.write .gpioIn 0) else g.write .gpioIn 0) := by
    split
    · exact .drive .refl .uartRx true (.inl rfl)
    · exact .refl
  refine ⟨g, hg, ?_⟩
  rw [heq]
  split
  · exact hserial.trans ((Fixture.probe_attach_drivesOnly _).mono fun _ h => .inr h)
  · exact hserial

theorem start_config (h : start around config allocation f = .ok b) : b.config = config := by
  obtain ⟨_, _, _, _, -, -, -, -, rfl⟩ := eq_of_start h
  rfl

theorem start_time (h : start around config allocation f = .ok b) :
    b.time = .start b.config.clock.startsHigh := by
  obtain ⟨_, _, _, _, -, -, -, -, rfl⟩ := eq_of_start h
  rfl

end Bench

end PinBench
