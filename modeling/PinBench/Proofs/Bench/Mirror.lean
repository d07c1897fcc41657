import PinBench.Proofs.Bench.EchoLoop
import PinBench.Proofs.Bench.Stages

/-! The loop inside a bench.  By the standard assignment only the clock, reset and the two serial
lines reach the serial part of the echoing model.  So whatever clients, probe, telemetry, stimulus
and recording do, the loop inside a bench goes through the states that it goes through by itself
(`mirrors_of_reaches`). -/

namespace PinBench

open Model

/-! ### The standard wiring -/

/-- The binding of a role whose signal is the default one on the echoing model. -/
def Model.EchoSoc.standardBinding (role : Role) : Binding :=
  ⟨role.index.val, (EchoSoc.table[role.index.val]?).elim 0 Signal.mask⟩

namespace Fixture

variable {f g : Fixture EchoSoc}

/-- Every role is served by its default signal. -/
def Wired (f : Fixture EchoSoc) : Prop :=
  ∀ role, f.binding? role = some (EchoSoc.standardBinding role)

/-- A model with every role served by its default signal. -/
def standard (m : EchoSoc) : Fixture EchoSoc :=
  ⟨m, Vector.ofFn fun i =>
    ((Role.all.map fun role => some (EchoSoc.standardBinding role))[i.val]?).join⟩

theorem bind_standard (m : EchoSoc) : Fixture.bind m .standard = .ok (standard m) := by
  have hroles : Role.all.mapM (Assignment.standard.resolve EchoSoc.table) =
      .ok (Role.all.map fun role => some (EchoSoc.standardBinding role)) := rfl
  show (Role.all.mapM (Assignment.standard.resolve EchoSoc.table) >>= fun bindings =>
    pure (Fixture.mk m (Vector.ofFn fun i => (bindings[i.val]?).join))) = _
  rw [hroles]
  rfl

theorem wired_standard (m : EchoSoc) : (standard m).Wired := by
  intro role
  cases role <;> rfl

theorem Wired.write (h : f.Wired) (role : Role) (value : Word) : (f.write role value).Wired := by
  intro other
  rw [Fixture.binding?, write_bindings]
  exact h other

theorem Wired.drive (h : f.Wired) (role : Role) (level : Bool) : (f.drive role level).Wired :=
  h.write role _

theorem DrivesOnly.wired {roles : Role → Prop} (hfg : DrivesOnly roles f g) (h : f.Wired) :
    g.Wired := by
  intro role
  rw [hfg.binding?]
  exact h role

theorem Wired.bound (h : f.Wired) (role : Role) : f.bound role = true := by
  rw [Fixture.bound, h role]
  rfl

/-- Only the clock, reset and the serial lines reach the serial part. -/
theorem DrivesOnly.serialPart {roles : Role → Prop} (hfg : DrivesOnly roles f g) (h : f.Wired)
    (hroles : ∀ role, roles role → 4 ≤ role.index.val) :
    g.model.serialPart = f.model.serialPart := by
  refine hfg.view (fun role hrole _ b hb m value => ?_)
  rw [h role, Option.some.injEq] at hb
  subst hb
  exact EchoSoc.serialPart_write m (hroles role hrole) value

theorem Wired.serialPart_drive_clock (h : f.Wired) (level : Bool) :
    (f.drive .clock level).model.serialPart = { f.model.serialPart with clk := level } := by
  rw [Fixture.drive, write_model rfl (h .clock)]
  exact EchoSoc.serialPart_write_clk _ _

theorem Wired.serialPart_drive_reset (h : f.Wired) (level : Bool) :
    (f.drive .reset level).model.serialPart = { f.model.serialPart with rst := level } := by
  rw [Fixture.drive, write_model rfl (h .reset)]
  exact EchoSoc.serialPart_write_rst _ _

theorem Wired.serialPart_drive_uartRx (h : f.Wired) (level : Bool) :
    (f.drive .uartRx level).model.serialPart = { f.model.serialPart with uartRx := level } := by
  rw [Fixture.drive, write_model rfl (h .uartRx)]
  exact EchoSoc.serialPart_write_uartRx _ _

theorem Wired.read_uartTx (h : f.Wired) : (f.read .uartTx).isHigh = f.model.serialPart.uartTx := by
  rw [read, h .uartTx]
  rfl

theorem serialPart_eval (f : Fixture EchoSoc) :
    f.eval.model.serialPart = f.model.serialPart.eval :=
  EchoSoc.serialPart_eval f.model

end Fixture

/-! ### The loop inside a bench -/

namespace Bench

variable {b c : Bench EchoSoc} {l : EchoLoop}

/-- The loop inside a bench. -/
structure Mirrors (b : Bench EchoSoc) (l : EchoLoop) : Prop where
  wired : b.fixture.Wired
  serial : b.serial = some l.link
  part : b.fixture.model.serialPart = l.part
  clock : b.time.clock = l.part.clk
  released : b.released = !l.part.rst

theorem actAll_mirrors (h : b.Mirrors l) (actions : List (Transport × Net.ClientAction)) :
    (b.actAll actions).Mirrors l := by
  obtain ⟨probe, relay, refused, heq, -, -⟩ := actAll_eq b actions
  rw [heq]
  exact ⟨h.wired, h.serial, h.part, h.clock, h.released⟩

theorem settle_mirrors (h : b.Mirrors l) (hhigh : b.config.reset.activeHigh = true) :
    b.releaseReset.settle.Mirrors (l.settle b.time.now b.config.reset.releaseTime.toNat) := by
  have hpart := h.part
  have hreleased := h.released
  by_cases hrelease : b.released = false ∧ b.config.reset.releaseTime.toNat ≤ b.time.now
  · have hrst : (l.part.rst && decide (b.time.now < b.config.reset.releaseTime.toNat)) = false := by
      simp [Nat.not_lt.mpr hrelease.2]
    have hlow : b.config.reset.releasedLevel = false := by simp [Config.Reset.releasedLevel, hhigh]
    have htrst : Fixture.DrivesOnly (· = .jtagTrst) (b.fixture.drive .reset false)
        ((b.fixture.drive .reset false).drive .jtagTrst true) := .drive .refl _ _ rfl
    have hwired : (b.fixture.drive .reset false).Wired := h.wired.drive _ _
    simp only [releaseReset, if_pos hrelease, settle, hlow]
    refine ⟨htrst.wired hwired, h.serial, ?_, ?_, ?_⟩
    · rw [Fixture.serialPart_eval, htrst.serialPart hwired (by rintro _ rfl; decide),
        h.wired.serialPart_drive_reset, hpart]
      simp only [EchoLoop.settle, hrst]
    · simp only [EchoLoop.settle, SerialPart.eval_clk]
      exact h.clock
    · simp only [EchoLoop.settle, SerialPart.eval_rst, hrst, Bool.not_false]
  · have hrst : (l.part.rst && decide (b.time.now < b.config.reset.releaseTime.toNat)) =
        l.part.rst := by
      cases hr : l.part.rst with
      | false => rfl
      | true =>
        rw [hr] at hreleased
        have : b.time.now < b.config.reset.releaseTime.toNat :=
          Nat.lt_of_not_le fun hle => hrelease ⟨hreleased, hle⟩
        simpa using this
    simp only [releaseReset, if_neg hrelease, settle]
    refine ⟨h.wired, h.serial, ?_, ?_, ?_⟩
    · rw [Fixture.serialPart_eval, hpart]
      simp only [EchoLoop.settle, hrst]
    · simp only [EchoLoop.settle, SerialPart.eval_clk]
      exact h.clock
    · simp only [EchoLoop.settle, SerialPart.eval_rst, hrst]
      exact h.released

theorem exchange_mirrors (h : b.Mirrors l) : b.exchange.1.Mirrors (l.exchange b.time.now) := by
  obtain ⟨probe, relay, monitor, fixture, heq, hside, -⟩ := exchange_eq b
  have hline := Fixture.link_tick_drivesOnly l.link b.time.now b.fixture
  have hwired := hline.wired h.wired
  have hpart : (l.link.tick b.time.now b.fixture).2.model.serialPart =
      (l.exchange b.time.now).part := by
    simp only [Serial.Link.tick, Serial.Link.ticked, EchoLoop.exchange]
    rw [h.wired.serialPart_drive_uartRx, h.part]
  have hlink : (l.link.tick b.time.now b.fixture).1 = (l.exchange b.time.now).link := by
    have hdriven : (b.fixture.drive .uartRx (l.link.transmitter.tick b.time.now).1.level).Wired :=
      h.wired.drive _ _
    have hread := hdriven.read_uartTx
    rw [h.wired.serialPart_drive_uartRx, h.part] at hread
    rcases hreceived : l.link.receiver.tick b.time.now l.part.uartTx with ⟨receiver, byte⟩
    cases byte <;> simp [Serial.Link.tick, Serial.Link.ticked, EchoLoop.exchange, hread, hreceived]
  rw [tickSerial_eq h.serial] at heq hside
  rw [heq]
  refine ⟨hside.wired hwired, by rw [hlink], ?_, h.clock, h.released⟩
  have hfour : ∀ role, isSideLine role → 4 ≤ role.index.val := by
    rintro _ ((rfl | rfl | rfl) | rfl) <;> decide
  exact (hside.serialPart hwired hfour).trans hpart

/-- The loop inside a bench takes its turn with the bench. -/
theorem midway_mirrors (h : b.Mirrors l) (hhigh : b.config.reset.activeHigh = true)
    (arrivals : Arrivals) :
    (b.midway arrivals).1.Mirrors (l.turn b.time.now b.config.reset.releaseTime.toNat) := by
  have hact := actAll_mirrors h arrivals.actions
  obtain ⟨probe, relay, refused, heq, -, -⟩ := actAll_eq b arrivals.actions
  have hsettle := settle_mirrors hact (by rw [heq]; exact hhigh)
  have hexchange := exchange_mirrors hsettle
  have htime : (b.actAll arrivals.actions).time = b.time := by rw [heq]
  have hconfig : (b.actAll arrivals.actions).config = b.config := by rw [heq]
  rw [(releaseReset_settle_eq _).1, htime, hconfig] at hexchange
  exact hexchange

theorem advance_mirrors (h : b.Mirrors l) : b.advance.Mirrors l.toggle := by
  obtain ⟨counter, fixture, heq, hside⟩ := advance_eq b
  have hwired : (b.fixture.drive .clock (!b.time.clock)).Wired := h.wired.drive _ _
  rw [heq]
  refine ⟨hside.wired hwired, h.serial, ?_, ?_, h.released⟩
  · show fixture.model.serialPart = l.toggle.part
    rw [hside.serialPart hwired (by rintro _ rfl; decide), h.wired.serialPart_drive_clock, h.part,
      h.clock]
    rfl
  · show (!b.time.clock) = !l.part.clk
    rw [h.clock]

/-! ### Starting -/

/-- A bench around a fresh echoing model, by the standard assignment, whose clock takes two time
steps for a period. -/
def StartsEcho (config : Config) (b : Bench EchoSoc) : Prop :=
  ∃ around allocation f,
    Fixture.bind (EchoSoc.powerUp config.uart.baudRate (2 * config.timeStep)) .standard = .ok f ∧
      start around config allocation f = .ok b

theorem requireAll_wired {f : Fixture EchoSoc} (h : f.Wired) (roles : List Role) :
    requireAll f roles = .ok () :=
  requireAll_of_bound fun role _ => h.bound role

theorem startSerial_wired {f : Fixture EchoSoc} (h : f.Wired) (config : Config) :
    startSerial config f = .ok (some (.start config.uart.baudRate config.uart.script)) := by
  unfold startSerial
  rw [requireAll_wired h, h.bound, h.bound]
  cases config.uart.script.isEmpty <;> rfl

/-- What a bench that starts is made of. -/
theorem start_eq {around : Surroundings} {config : Config} {allocation : Gpio.Allocation}
    {f : Fixture EchoSoc} (hf : f.Wired) (h : start around config allocation f = .ok b) :
    ∃ probe relay recorder,
      startProbe around config f = .ok probe ∧
        b = { config, probe, relay, recorder
              serial := some (.start config.uart.baudRate config.uart.script)
              fixture := driveFirst config true probe.isSome f
              time := .start config.clock.startsHigh
              counter := startCounter config allocation f
              monitor := .start, released := false, down := false, refused := [] } := by
  unfold start at h
  rw [requireAll_wired hf, startSerial_wired hf] at h
  cases hprobe : startProbe around config f with
  | error e => simp [hprobe, bind, Except.bind] at h
  | ok probe =>
    cases hrelay : startRelay around config allocation f with
    | error e => simp [hprobe, hrelay, bind, Except.bind] at h
    | ok relay =>
      cases hrecorder : startRecorder around config f with
      | error e => simp [hprobe, hrelay, hrecorder, bind, Except.bind] at h
      | ok recorder =>
        simp only [hprobe, hrelay, hrecorder, bind, Except.bind, pure, Except.pure,
          Except.ok.injEq] at h
        exact ⟨probe, relay, recorder, rfl, h.symm⟩

/-- A bench with a serial link and nothing else. -/
def bare (config : Config) : Bench EchoSoc :=
  { config, probe := none, relay := none, recorder := none, counter := none
    serial := some (.start config.uart.baudRate config.uart.script)
    fixture := driveFirst config true false
      (.standard (EchoSoc.powerUp config.uart.baudRate (2 * config.timeStep)))
    time := .start config.clock.startsHigh
    monitor := .start, released := false, down := false, refused := [] }

/-- A configuration that asks for nothing but the serial link. -/
structure Bare (config : Config) : Prop where
  jtag : config.jtag.enabled = false
  telemetry : config.telemetry.enabled = false
  trace : config.trace.enabled = false
  stimulus : config.stimulus.enabled = false

theorem startsEcho_bare {config : Config} (h : Bare config) : StartsEcho config (bare config) := by
  have hf := Fixture.wired_standard
    (EchoSoc.powerUp config.uart.baudRate (2 * config.timeStep))
  have hprobe (around f) : startProbe (M := EchoSoc) around config f = .ok none := by
    simp [startProbe, h.jtag, pure, Except.pure]
  have hrelay (around allocation f) :
      startRelay (M := EchoSoc) around config allocation f = .ok none := by
    simp [startRelay, h.telemetry, pure, Except.pure]
  have hrecorder (around f) : startRecorder (M := EchoSoc) around config f = .ok none := by
    simp [startRecorder, h.trace, pure, Except.pure]
  refine ⟨⟨fun _ _ => true, true, true⟩, ⟨[], rfl⟩, _, Fixture.bind_standard _, ?_⟩
  unfold start
  rw [requireAll_wired hf, startSerial_wired hf, hprobe, hrelay, hrecorder]
  simp [bare, startCounter, h.stimulus, bind, Except.bind, pure, Except.pure]

theorem driveFirst_part {f : Fixture EchoSoc} (hf : f.Wired) (config : Config) (probe : Bool) :
    (driveFirst config true probe f).Wired ∧
      (driveFirst config true probe f).model.serialPart =
        { f.model.serialPart with
          clk := config.clock.startsHigh, rst := config.reset.assertedLevel, uartRx := true } := by
  have hclock := hf.drive .clock config.clock.startsHigh
  have hreset := hclock.drive .reset config.reset.assertedLevel
  obtain ⟨g, hg⟩ : ∃ g, g = (((f.drive .clock config.clock.startsHigh).drive .reset
      config.reset.assertedLevel).drive .jtagTrst false).write .gpioIn 0 := ⟨_, rfl⟩
  have hinputs : Fixture.DrivesOnly (fun role => role = .jtagTrst ∨ role = .gpioIn)
      ((f.drive .clock config.clock.startsHigh).drive .reset config.reset.assertedLevel) g := by
    rw [hg]
    exact .write .gpioIn 0 (Fixture.DrivesOnly.refl.drive .jtagTrst false (.inl rfl)) (.inr rfl)
  have hidle := hinputs.wired hreset
  have hpart := hinputs.serialPart hreset (by rintro _ (rfl | rfl) <;> decide)
  rw [hclock.serialPart_drive_reset, hf.serialPart_drive_clock] at hpart
  have hattached : (Serial.Link.attach g).Wired := hidle.drive .uartRx true
  have hline : (Serial.Link.attach g).model.serialPart = _ := hidle.serialPart_drive_uartRx true
  rw [hpart] at hline
  have hfirst : driveFirst config true probe f =
      if probe then Jtag.Probe.attach (Serial.Link.attach g) else Serial.Link.attach g := by
    rw [hg]
    simp only [driveFirst, if_true]
  rw [hfirst]
  cases probe with
  | false => exact ⟨hattached, hline⟩
  | true =>
    have hprobe := Fixture.probe_attach_drivesOnly (Serial.Link.attach g)
    have hquiet := hprobe.serialPart hattached (by rintro _ (rfl | rfl | rfl) <;> decide)
    exact ⟨hprobe.wired hattached, hquiet.trans hline⟩

theorem start_mirrors {config : Config} (h : StartsEcho config b)
    (hhigh : config.reset.activeHigh = true) :
    b.config = config ∧ b.time.now = 0 ∧ b.Mirrors (.start (.ofConfig config)) := by
  obtain ⟨around, allocation, f, hbind, hstart⟩ := h
  rw [Fixture.bind_standard, Except.ok.injEq] at hbind
  subst hbind
  have hf := Fixture.wired_standard
    (EchoSoc.powerUp config.uart.baudRate (2 * config.timeStep))
  obtain ⟨probe, relay, recorder, -, rfl⟩ := start_eq hf hstart
  obtain ⟨hwired, hpart⟩ := driveFirst_part hf config probe.isSome
  refine ⟨rfl, rfl, hwired, rfl, ?_, rfl, rfl⟩
  have hmodel : (Fixture.standard (EchoSoc.powerUp config.uart.baudRate
      (2 * config.timeStep))).model.serialPart = .powerUp _ _ := EchoSoc.serialPart_powerUp _ _
  rw [hmodel] at hpart
  refine hpart.trans ?_
  simp only [EchoLoop.start, EchoSetup.ofConfig, SerialPart.powerUp, Config.Reset.assertedLevel,
    hhigh]

/-- The loop inside a bench goes through the states that it goes through by itself. -/
theorem mirrors_of_reaches {config : Config} {schedule : Schedule} {n : Nat}
    (hb : StartsEcho config b) (hhigh : config.reset.activeHigh = true)
    (h : Reaches schedule b n c) (hn : n * config.timeStep ≤ Time.latest) :
    c.config = config ∧ c.time.now = n * config.timeStep ∧
      c.Mirrors (.before (.ofConfig config) n) := by
  induction h with
  | start =>
    obtain ⟨hconfig, hnow, hmirrors⟩ := start_mirrors hb hhigh
    exact ⟨hconfig, by rw [hnow, Nat.zero_mul], hmirrors⟩
  | @turn n c d _ hturn ih =>
    rw [Nat.succ_mul] at hn
    obtain ⟨hconfig, hnow, hmirrors⟩ := ih (by omega)
    have hmid := midway_mirrors hmirrors (by rw [hconfig]; exact hhigh) (schedule n)
    obtain ⟨hmidConfig, hmidTime, -⟩ := midway_eq c (schedule n)
    obtain ⟨counter, fixture, hadvance, -⟩ := advance_eq (c.midway (schedule n)).1
    have hd : d = (c.midway (schedule n)).1.advance := turn_eq_none hturn
    have hnext := advance_mirrors hmid
    rw [hnow, hconfig] at hnext
    rw [hd]
    refine ⟨?_, ?_, hnext⟩
    · rw [hadvance]
      exact hmidConfig.trans hconfig
    · rw [hadvance]
      show (c.midway (schedule n)).1.time.now.after (c.midway (schedule n)).1.config.timeStep = _
      rw [hmidTime, hmidConfig, hnow, hconfig, Time.after_eq_add hn, Nat.succ_mul]

/-- What an iteration leaves behind for the bytes received at both ends, whether it is the last one
or not. -/
theorem turn_mirrors {config : Config} {schedule : Schedule} {n : Nat}
    (hb : StartsEcho config b) (hhigh : config.reset.activeHigh = true)
    (hc : Reaches schedule b n c) (hn : n * config.timeStep ≤ Time.latest) :
    (c.turn (schedule n)).1.serial = some (EchoLoop.after (.ofConfig config) n).link ∧
      (c.turn (schedule n)).1.fixture.model.received =
        (EchoLoop.after (.ofConfig config) n).part.received ∧
      ((c.turn (schedule n)).2 = some .modelFinished →
        (EchoLoop.after (.ofConfig config) n).part.finished = true) := by
  obtain ⟨hconfig, hnow, hmirrors⟩ := mirrors_of_reaches hb hhigh hc hn
  have hmid := midway_mirrors hmirrors (by rw [hconfig]; exact hhigh) (schedule n)
  rw [hnow, hconfig] at hmid
  cases hcause : (c.midway (schedule n)).1.cause? (schedule n).stop (c.midway (schedule n)).2 with
  | none =>
    rw [turn_of_none hcause]
    have hnext := advance_mirrors hmid
    exact ⟨hnext.serial, congrArg SerialPart.received hnext.part, fun h => nomatch h⟩
  | some cause =>
    rw [turn_of_cause hcause]
    refine ⟨hmid.serial, congrArg SerialPart.received hmid.part, fun h => ?_⟩
    cases Option.some.inj h
    have hfinished := finished_of_cause hcause
    have hpart : _ = (EchoLoop.after (.ofConfig config) n).part := hmid.part
    rw [← hpart]
    exact hfinished

end Bench

end PinBench
