import PinBench.Proofs.Bench.Course
import PinBench.Proofs.Bench.Mirror
import PinBench.Proofs.Jtag.Direct

/-! Debugging the echoing model in a bench.  The probe's server and the model's test access port are
what they are when the server clocks the port directly, once for each phase that the gate lets
through after reset has been released (`debugging_is_direct`).  The pins run ahead of the port: what
the probe drives is seen at the next evaluation, and the evaluations after that find the same levels
and change nothing.  So `Debugs` compares the port as it will be once it has seen its pins. -/

namespace PinBench

open Model Jtag

/-! ### The pins of the port -/

namespace Fixture

variable {roles : Role → Prop} {f g : Fixture EchoSoc}

/-- The roles of the test access port. -/
def isTapRole (role : Role) : Prop := isProbeLine role ∨ role = .jtagTrst ∨ role = .jtagTdo

/-- The roles of the port are served by their default signals, and nothing else drives the pins
there. -/
structure TapWired (f : Fixture EchoSoc) : Prop where
  binding : ∀ role, isTapRole role → f.binding? role = some (EchoSoc.standardBinding role)
  apart : ∀ role, ¬isTapRole role → role.direction = .hostDriven →
    ∀ b, f.binding? role = some b → b.signal < 6 ∨ 10 < b.signal

theorem Wired.tapWired (h : f.Wired) : f.TapWired where
  binding role _ := h role
  apart role hrole _ b hb := by
    rw [h role, Option.some.injEq] at hb
    subst hb
    cases role with
    | jtagTck => exact absurd (.inl (.inl rfl)) hrole
    | jtagTms => exact absurd (.inl (.inr (.inl rfl))) hrole
    | jtagTdi => exact absurd (.inl (.inr (.inr rfl))) hrole
    | jtagTrst => exact absurd (.inr (.inl rfl)) hrole
    | jtagTdo => exact absurd (.inr (.inr rfl)) hrole
    | clock | reset | uartRx | uartTx | gpioIn | gpioOut => exact .inl (by decide)

theorem DrivesOnly.tapWired (hfg : DrivesOnly roles f g) (h : f.TapWired) : g.TapWired where
  binding role hrole := (hfg.binding? role).trans (h.binding role hrole)
  apart role hrole hdir b hb := h.apart role hrole hdir b ((hfg.binding? role).symm.trans hb)

theorem not_isTapRole {role : Role} (h : role.index.val < 6) : ¬isTapRole role := by
  rintro ((rfl | rfl | rfl) | rfl | rfl) <;> exact absurd h (by decide)

/-- The roles before those of the port do not reach it. -/
theorem DrivesOnly.tapPart (hfg : DrivesOnly roles f g) (h : f.TapWired)
    (hroles : ∀ role, roles role → role.index.val < 6) : g.model.tapPart = f.model.tapPart :=
  hfg.view fun role hrole hdir b hb m value =>
    EchoSoc.tapPart_write m (h.apart role (not_isTapRole (hroles role hrole)) hdir b hb) value

theorem TapWired.write (h : f.TapWired) (role : Role) (value : Word) :
    (f.write role value).TapWired := by
  have hfg : DrivesOnly (· = role) f (f.write role value) := .write role value .refl rfl
  exact hfg.tapWired h

namespace TapWired

theorem eval (h : f.TapWired) : f.eval.TapWired := ⟨h.binding, h.apart⟩

theorem drive (h : f.TapWired) (role : Role) (level : Bool) : (f.drive role level).TapWired :=
  h.write role _

theorem tapPart_drive_tck (h : f.TapWired) (level : Bool) :
    (f.drive .jtagTck level).model.tapPart =
      { f.model.tapPart with lines := { f.model.tapPart.lines with tck := level } } := by
  rw [Fixture.drive, write_model rfl (h.binding .jtagTck (.inl (.inl rfl)))]
  exact EchoSoc.tapPart_write_tck _ _

theorem tapPart_drive_tms (h : f.TapWired) (level : Bool) :
    (f.drive .jtagTms level).model.tapPart =
      { f.model.tapPart with lines := { f.model.tapPart.lines with tms := level } } := by
  rw [Fixture.drive, write_model rfl (h.binding .jtagTms (.inl (.inr (.inl rfl))))]
  exact EchoSoc.tapPart_write_tms _ _

theorem tapPart_drive_tdi (h : f.TapWired) (level : Bool) :
    (f.drive .jtagTdi level).model.tapPart =
      { f.model.tapPart with lines := { f.model.tapPart.lines with tdi := level } } := by
  rw [Fixture.drive, write_model rfl (h.binding .jtagTdi (.inl (.inr (.inr rfl))))]
  exact EchoSoc.tapPart_write_tdi _ _

theorem tapPart_drive_trst (h : f.TapWired) (level : Bool) :
    (f.drive .jtagTrst level).model.tapPart = { f.model.tapPart with trst := level } := by
  rw [Fixture.drive, write_model rfl (h.binding .jtagTrst (.inr (.inl rfl)))]
  exact EchoSoc.tapPart_write_trst _ _

theorem read_tdo (h : f.TapWired) : (f.read .jtagTdo).isHigh = f.model.tapPart.tdo := by
  rw [read, h.binding .jtagTdo (.inr (.inr rfl))]
  rfl

theorem tapPart_drive_lines (h : f.TapWired) (lines : Lines) :
    (((f.drive .jtagTms lines.tms).drive .jtagTdi lines.tdi).drive .jtagTck
      lines.tck).model.tapPart = { f.model.tapPart with lines } := by
  have htms := h.drive .jtagTms lines.tms
  rw [(htms.drive .jtagTdi lines.tdi).tapPart_drive_tck, htms.tapPart_drive_tdi,
    h.tapPart_drive_tms]

theorem tapPart_attach (h : f.TapWired) :
    (Probe.attach f).model.tapPart = { f.model.tapPart with lines := .idle } := by
  have htck := h.drive .jtagTck Lines.idle.tck
  rw [Probe.attach, (htck.drive .jtagTms Lines.idle.tms).tapPart_drive_tdi,
    htck.tapPart_drive_tms, h.tapPart_drive_tck]

end TapWired

end Fixture

/-! ### What happens to the server -/

/-- What clients of the debug server do, among all that clients do. -/
def debuggerActions (actions : List (Transport × Net.ClientAction)) : List Net.ClientAction :=
  actions.filterMap fun a => if a.1 = .jtag then some a.2 else none

namespace Config

def gate (c : Config) : Gate := .every c.jtag.divisor.toNat c.clock.timeStep.toNat

/-- The phase of the test clock that the gate lets through at an instant. -/
def phases (c : Config) (released : Bool) (now : Time) : List Moment :=
  if released then (c.gate.cycle? now).toList.map .phase else []

/-- What happens to the debug server around an iteration at an instant: first clients act, and then,
from the release of reset on, a phase may come. -/
def moments (c : Config) (now : Time) (arrivals : Arrivals) : List Moment :=
  (debuggerActions arrivals.actions).map .client ++
    c.phases (decide (c.reset.releaseTime.toNat ≤ now)) now

/-- What happens to the debug server before iteration `n`. -/
def momentsBefore (c : Config) (schedule : Schedule) (n : Nat) : List Moment :=
  (List.range n).flatMap fun k => c.moments (c.instant k) (schedule k)

theorem momentsBefore_succ (c : Config) (schedule : Schedule) (n : Nat) :
    c.momentsBefore schedule (n + 1) =
      c.momentsBefore schedule n ++ c.moments (c.instant n) (schedule n) := by
  simp only [momentsBefore, List.range_succ, List.flatMap_append, List.flatMap_cons,
    List.flatMap_nil, List.append_nil]

end Config

namespace Bench

variable {b c : Bench EchoSoc} {d : Direct} {roles : Role → Prop}

/-- The probe and the port of a bench are the server and the port of `d`, once the port has seen the
levels on its pins. -/
structure Debugs (b : Bench EchoSoc) (d : Direct) : Prop where
  wired : b.fixture.TapWired
  probe_eq : b.probe = some ⟨d.server, b.config.gate⟩
  lines_eq : b.fixture.model.tapPart.lines = d.server.lines
  trst_eq : b.fixture.model.tapPart.trst = b.released
  tap_eq : b.fixture.model.tapPart.tap.see d.server.lines = d.tap
  held : b.released = false → b.fixture.model.tapPart.tap = .powerUp echoSocIdcode

/-- The port is the port of `d`, with its output on the pin. -/
structure ShowsTap (b : Bench EchoSoc) (d : Direct) : Prop where
  tap_eq : b.fixture.model.tapPart.tap = d.tap
  tdo_eq : b.fixture.model.tapPart.tdo = d.tap.tdo

namespace Debugs

theorem frame (h : b.Debugs d) (hfixture : Fixture.DrivesOnly roles b.fixture c.fixture)
    (hroles : ∀ role, roles role → role.index.val < 6) (hprobe : c.probe = b.probe)
    (hreleased : c.released = b.released) (hconfig : c.config = b.config) : c.Debugs d := by
  have hpart := hfixture.tapPart h.wired hroles
  refine ⟨hfixture.tapWired h.wired, ?_, ?_, ?_, ?_, ?_⟩
  · rw [hprobe, hconfig]
    exact h.probe_eq
  · rw [hpart]
    exact h.lines_eq
  · rw [hpart, hreleased]
    exact h.trst_eq
  · rw [hpart]
    exact h.tap_eq
  · rw [hpart, hreleased]
    exact h.held

theorem see_again (h : b.Debugs d) : d.tap.see d.server.lines = d.tap := by
  refine Tap.see_of_still ?_
  rw [← h.tap_eq]
  exact Tap.lastTck_see _ _

/-! ### Clients -/

theorem refuse (h : b.Debugs d) (e : Net.ClientError) :
    { b with refused := b.refused ++ [e] }.Debugs d :=
  ⟨h.wired, h.probe_eq, h.lines_eq, h.trst_eq, h.tap_eq, h.held⟩

theorem act_jtag (h : b.Debugs d) (action : Net.ClientAction) :
    (b.actAll [(.jtag, action)]).Debugs (d.meet (.client action)) := by
  have hlistener : b.listener? .jtag = some d.server.listener := by
    rw [listener?, h.probe_eq]
    rfl
  simp only [actAll, List.foldl_cons, List.foldl_nil, act, hlistener, Direct.meet, Server.meet]
  cases d.server.listener.act action with
  | error e => exact h.refuse e
  | ok listener =>
    have hprobe : (b.setListener .jtag listener).probe =
        some ⟨{ d.server with listener }, b.config.gate⟩ := by
      rw [setListener, h.probe_eq]
      rfl
    exact ⟨h.wired, hprobe, h.lines_eq, h.trst_eq, h.tap_eq, h.held⟩

theorem act_telemetry (h : b.Debugs d) (action : Net.ClientAction) :
    (b.actAll [(.telemetry, action)]).Debugs d := by
  simp only [actAll, List.foldl_cons, List.foldl_nil, act]
  cases b.listener? .telemetry with
  | none => exact h.refuse .unreachable
  | some listener =>
    simp only
    cases listener.act action with
    | error e => exact h.refuse e
    | ok listener => exact ⟨h.wired, h.probe_eq, h.lines_eq, h.trst_eq, h.tap_eq, h.held⟩

theorem actAll (h : b.Debugs d) (actions : List (Transport × Net.ClientAction)) :
    (b.actAll actions).Debugs (d.run ((debuggerActions actions).map .client)) := by
  induction actions generalizing b d with
  | nil => exact h
  | cons a rest ih =>
    obtain ⟨transport, action⟩ := a
    rw [actAll_cons]
    cases transport with
    | jtag => exact ih (h.act_jtag action)
    | telemetry => exact ih (h.act_telemetry action)

/-! ### Up to the evaluation -/

theorem releaseReset (h : b.Debugs d) : b.releaseReset.Debugs d := by
  unfold Bench.releaseReset
  split
  · have hreset : Fixture.DrivesOnly (· = .reset) b.fixture
        (b.fixture.drive .reset b.config.reset.releasedLevel) := .drive .refl _ _ rfl
    have hwired := hreset.tapWired h.wired
    have hpart := hwired.tapPart_drive_trst true
    rw [hreset.tapPart h.wired (by rintro _ rfl; decide)] at hpart
    refine ⟨hwired.drive _ _, h.probe_eq, ?_, ?_, ?_, fun hheld => nomatch hheld⟩
    · exact (congrArg TapPart.lines hpart).trans h.lines_eq
    · exact congrArg TapPart.trst hpart
    · exact (congrArg (fun p => p.tap.see d.server.lines) hpart).trans h.tap_eq
  · exact h

theorem tapPart_settle (b : Bench EchoSoc) :
    b.settle.fixture.model.tapPart = b.fixture.model.tapPart.eval :=
  EchoSoc.tapPart_eval b.fixture.model

/-- An evaluation brings the port up to its pins. -/
theorem settle_tap (h : b.Debugs d) (hreleased : b.released = true) :
    b.settle.fixture.model.tapPart.tap = d.tap := by
  rw [tapPart_settle, TapPart.eval, h.trst_eq, hreleased, if_pos rfl, h.lines_eq]
  exact h.tap_eq

/-- A port that is held in reset stays as it is after power-up. -/
theorem settle_held (h : b.Debugs d) (hheld : b.released = false) :
    b.settle.fixture.model.tapPart.tap = .powerUp echoSocIdcode := by
  rw [tapPart_settle, TapPart.eval, h.trst_eq, hheld, if_neg Bool.false_ne_true, h.held hheld]
  exact Tap.reset_powerUp _

theorem settle (h : b.Debugs d) : b.settle.Debugs d := by
  refine ⟨h.wired.eval, h.probe_eq, ?_, ?_, ?_, h.settle_held⟩
  · rw [tapPart_settle]
    exact h.lines_eq
  · rw [tapPart_settle]
    exact h.trst_eq
  · cases hreleased : b.released with
    | true =>
      rw [h.settle_tap hreleased]
      exact h.see_again
    | false =>
      rw [h.settle_held hreleased, ← h.held hreleased]
      exact h.tap_eq

theorem settle_shows (h : b.Debugs d) (hreleased : b.released = true) : b.settle.ShowsTap d := by
  have htdo : b.settle.fixture.model.tapPart.tdo = b.settle.fixture.model.tapPart.tap.tdo := by
    rw [tapPart_settle]
    rfl
  refine ⟨h.settle_tap hreleased, ?_⟩
  rw [htdo, h.settle_tap hreleased]

/-! ### After the evaluation -/

theorem tickSerial (h : b.Debugs d) : b.tickSerial.Debugs d := by
  obtain ⟨serial, fixture, hserial, hfixture⟩ := tickSerial_frame b
  rw [hserial]
  exact h.frame hfixture (by rintro _ rfl; decide) rfl rfl rfl

theorem tickSerial_shows (h : b.Debugs d) (hshows : b.ShowsTap d) : b.tickSerial.ShowsTap d := by
  have hpart := (tickSerial_drivesOnly b).tapPart h.wired (by rintro _ rfl; decide)
  exact ⟨hpart ▸ hshows.tap_eq, hpart ▸ hshows.tdo_eq⟩

/-- Between phases, and before the release of reset, the probe does nothing. -/
theorem tickProbe_between (h : b.Debugs d)
    (hphase : b.released = true → b.config.gate.cycle? b.time.now = none) :
    b.tickProbe.1.Debugs d := by
  have htick : b.tickProbe.1 = { b with probe := some ⟨d.server, b.config.gate⟩ } ∨
      b.tickProbe.1 = b := by
    simp only [Bench.tickProbe, h.probe_eq]
    cases hreleased : b.released with
    | false => exact .inr rfl
    | true =>
      left
      simp only [if_true, Probe.tick, hphase hreleased]
  rcases htick with htick | htick
  · have hsame : Fixture.DrivesOnly (fun _ => False) b.fixture b.fixture := .refl
    rw [htick]
    exact h.frame hsame (fun _ hrole => hrole.elim) h.probe_eq.symm rfl rfl
  · rw [htick]
    exact h

/-- In a phase the server takes the output of the port and steps, and its lines go onto the pins.
The port will see them at the next evaluation. -/
theorem tickProbe_phase (h : b.Debugs d) (hreleased : b.released = true) (hshows : b.ShowsTap d)
    {cycle : Nat} (hcycle : b.config.gate.cycle? b.time.now = some cycle) :
    b.tickProbe.1.Debugs (d.meet (.phase cycle)) := by
  obtain ⟨server, hserver⟩ : ∃ server, server = d.server.step cycle d.tap.tdo := ⟨_, rfl⟩
  obtain ⟨fixture, hfixture⟩ : ∃ fixture, fixture =
      ((b.fixture.drive .jtagTms server.lines.tms).drive .jtagTdi server.lines.tdi).drive
        .jtagTck server.lines.tck := ⟨_, rfl⟩
  have hread : (b.fixture.read .jtagTdo).isHigh = d.tap.tdo :=
    h.wired.read_tdo.trans hshows.tdo_eq
  have htick : b.tickProbe.1 = { b with probe := some ⟨server, b.config.gate⟩, fixture } := by
    simp only [Bench.tickProbe, h.probe_eq, hreleased, if_true, Probe.tick, hcycle, hread,
      hfixture, hserver]
  have hmeet : d.meet (.phase cycle) = ⟨server, d.tap.see server.lines⟩ := by
    rw [hserver]
    rfl
  have hpart : fixture.model.tapPart = { b.fixture.model.tapPart with lines := server.lines } := by
    rw [hfixture]
    exact h.wired.tapPart_drive_lines server.lines
  have hwired : fixture.TapWired := by
    rw [hfixture]
    exact ((h.wired.drive _ _).drive _ _).drive _ _
  rw [htick, hmeet]
  refine ⟨hwired, rfl, ?_, ?_, ?_, fun hheld => ?_⟩
  · exact congrArg TapPart.lines hpart
  · exact (congrArg TapPart.trst hpart).trans h.trst_eq
  · have htap : fixture.model.tapPart.tap = d.tap :=
      (congrArg TapPart.tap hpart).trans hshows.tap_eq
    exact congrArg (Tap.see · server.lines) htap
  · rw [hreleased] at hheld
    cases hheld

theorem tickProbe (h : b.Debugs d) (hshows : b.released = true → b.ShowsTap d) :
    b.tickProbe.1.Debugs (d.run (b.config.phases b.released b.time.now)) := by
  cases hreleased : b.released with
  | false => exact h.tickProbe_between fun hr => nomatch hreleased.symm.trans hr
  | true =>
    rw [Config.phases, if_pos rfl]
    cases hcycle : b.config.gate.cycle? b.time.now with
    | none => exact h.tickProbe_between fun _ => hcycle
    | some cycle => exact h.tickProbe_phase hreleased (hshows hreleased) hcycle

theorem exchange (h : b.Debugs d) (hshows : b.released = true → b.ShowsTap d) :
    b.exchange.1.Debugs (d.run (b.config.phases b.released b.time.now)) := by
  obtain ⟨serial, line, hserial, -⟩ := tickSerial_frame b
  have hreleased : b.tickSerial.released = b.released := by rw [hserial]
  have hphases : b.tickSerial.config.phases b.tickSerial.released b.tickSerial.time.now =
      b.config.phases b.released b.time.now := by rw [hserial]
  have hprobe := h.tickSerial.tickProbe fun hr =>
    h.tickSerial_shows (hshows (hreleased.symm.trans hr))
  rw [hphases] at hprobe
  obtain ⟨relay, fixture, hrelay, hfixture⟩ := tickRelay_eq b.tickSerial.tickProbe.1
  have hexchange : b.exchange.1 =
      { b.tickSerial.tickProbe.1.tickRelay with
        monitor := (b.tickSerial.tickProbe.1.tickRelay.monitor.sample
          b.tickSerial.tickProbe.1.tickRelay.fixture).1 } := rfl
  rw [hexchange, hrelay]
  exact hprobe.frame hfixture (by rintro _ rfl; decide) rfl rfl rfl

theorem advance (h : b.Debugs d) : b.advance.Debugs d := by
  obtain ⟨counter, fixture, hadvance, hfixture⟩ := advance_eq b
  have hclock : Fixture.DrivesOnly (fun role => role = .clock ∨ role = .gpioIn) b.fixture
      (b.fixture.drive .clock (!b.time.clock)) := .drive .refl _ _ (.inl rfl)
  rw [hadvance]
  exact h.frame (hclock.trans (hfixture.mono fun _ hrole => .inr hrole))
    (by rintro _ (rfl | rfl) <;> decide) rfl rfl rfl

/-! ### A whole run -/

theorem settled (h : b.Debugs d) (arrivals : Arrivals)
    (hkept : b.released = true → b.config.reset.releaseTime.toNat ≤ b.time.now) :
    (b.settled arrivals).Debugs (d.run ((debuggerActions arrivals.actions).map .client)) ∧
      (b.settled arrivals).released = decide (b.config.reset.releaseTime.toNat ≤ b.time.now) ∧
      ((b.settled arrivals).released = true →
        (b.settled arrivals).ShowsTap (d.run ((debuggerActions arrivals.actions).map .client))) := by
  have hdebugs := (h.actAll arrivals.actions).releaseReset
  exact ⟨hdebugs.settle, settled_released hkept arrivals, hdebugs.settle_shows⟩

theorem midway (h : b.Debugs d) (arrivals : Arrivals)
    (hkept : b.released = true → b.config.reset.releaseTime.toNat ≤ b.time.now) :
    (b.midway arrivals).1.Debugs (d.run (b.config.moments b.time.now arrivals)) ∧
      ((b.midway arrivals).1.released = true →
        b.config.reset.releaseTime.toNat ≤ b.time.now) := by
  obtain ⟨hdebugs, hreleased, hshows⟩ := h.settled arrivals hkept
  have hexchange := hdebugs.exchange hshows
  have hconfig : (b.settled arrivals).config = b.config ∧
      (b.settled arrivals).time = b.time := by
    obtain ⟨_, _, _, _, _, _, hsettled⟩ := settled_eq b arrivals
    rw [hsettled]
    exact ⟨rfl, rfl⟩
  rw [hconfig.1, hconfig.2, hreleased, ← Direct.run_append] at hexchange
  refine ⟨hexchange, fun hr => ?_⟩
  have hsame : (b.midway arrivals).1.released = (b.settled arrivals).released := by
    obtain ⟨_, _, _, _, _, hframe⟩ := exchange_frame (b.settled arrivals)
    show (b.settled arrivals).exchange.1.released = _
    rw [hframe]
  rw [hsame, hreleased] at hr
  exact of_decide_eq_true hr

end Debugs

theorem driveFirst_tapPart {f : Fixture EchoSoc} (hf : f.TapWired) (config : Config)
    (serial : Bool) :
    (driveFirst config serial true f).TapWired ∧
      (driveFirst config serial true f).model.tapPart =
        { f.model.tapPart with lines := .idle, trst := false } := by
  obtain ⟨g, e, hg, he, hfirst⟩ : ∃ g e,
      Fixture.DrivesOnly (fun role => role = .clock ∨ role = .reset) f g ∧
        Fixture.DrivesOnly (fun role => role = .gpioIn ∨ role = .uartRx)
          (g.drive .jtagTrst false) e ∧
        driveFirst config serial true f = Probe.attach e := by
    refine ⟨_, _, (Fixture.DrivesOnly.refl.drive .clock config.clock.startsHigh (.inl rfl)).drive
      .reset config.reset.assertedLevel (.inr rfl), ?_, rfl⟩
    cases serial with
    | false => exact .write .gpioIn 0 .refl (.inl rfl)
    | true => exact .drive (.write .gpioIn 0 .refl (.inl rfl)) .uartRx true (.inr rfl)
  have hwired := hg.tapWired hf
  have hheld := hwired.drive .jtagTrst false
  have hpart : e.model.tapPart = { f.model.tapPart with trst := false } := by
    rw [he.tapPart hheld (by rintro _ (rfl | rfl) <;> decide),
      hwired.tapPart_drive_trst,
      hg.tapPart hf (by rintro _ (rfl | rfl) <;> decide)]
  have hattach := Fixture.probe_attach_drivesOnly e
  rw [hfirst, (he.tapWired hheld).tapPart_attach, hpart]
  exact ⟨hattach.tapWired (he.tapWired hheld), rfl⟩

theorem start_debugs {around : Surroundings} {config : Config} {allocation : Gpio.Allocation}
    {f : Fixture EchoSoc} {baudRate : UInt32} {clockPeriod : Nat} (hf : f.TapWired)
    (hmodel : f.model = .powerUp baudRate clockPeriod) (henabled : config.jtag.enabled = true)
    (hstart : start around config allocation f = .ok b) :
    b.Debugs (.start (.listen (if config.jtag.loopbackOnly then .loopback else .any)
      around.reachable) echoSocIdcode) ∧ b.released = false := by
  obtain ⟨serial, probe, relay, recorder, -, hprobe, -, -, rfl⟩ := eq_of_start hstart
  obtain rfl := startProbe_eq hprobe henabled
  obtain ⟨hwired, hpart⟩ := driveFirst_tapPart hf config serial.isSome
  have htap : f.model.tapPart.tap = .powerUp echoSocIdcode := by rw [hmodel]; rfl
  refine ⟨⟨hwired, rfl, ?_, ?_, ?_, fun _ => ?_⟩, rfl⟩
  · exact congrArg TapPart.lines hpart
  · exact congrArg TapPart.trst hpart
  · exact congrArg (Tap.see · .idle) ((congrArg TapPart.tap hpart).trans htap)
  · exact (congrArg TapPart.tap hpart).trans htap

/-- What one iteration keeps, a whole run keeps: the probe and the port are those of the server that
clocks the port directly. -/
theorem course_debugs (h : b.Debugs d) (hheld : b.released = false)
    (htime : b.time = .start b.config.clock.startsHigh) (schedule : Schedule) (n : Nat) :
    (course schedule b n).Debugs (d.run (b.config.momentsBefore schedule n)) ∧
      ((course schedule b n).released = true →
        b.config.reset.releaseTime.toNat ≤ b.config.instant n) := by
  induction n with
  | zero => exact ⟨h, fun hr => nomatch hheld.symm.trans hr⟩
  | succ n ih =>
    obtain ⟨hdebugs, hkept⟩ := ih
    have hconfig := course_config schedule b n
    have hnow : (course schedule b n).time.now = b.config.instant n := by
      rw [course_time htime]
    have hmidway := hdebugs.midway (schedule n) (by rw [hconfig, hnow]; exact hkept)
    rw [hconfig, hnow, ← Direct.run_append, ← Config.momentsBefore_succ] at hmidway
    refine ⟨hmidway.1.advance, fun hr => ?_⟩
    obtain ⟨_, _, hadvance, -⟩ := advance_eq (middle schedule b n).1
    have hsucc : course schedule b (n + 1) = _ := hadvance
    rw [hsucc] at hr
    exact Nat.le_trans (hmidway.2 hr) (b.config.instant_mono (Nat.le_succ n))

theorem turn_probe {M : Type} [HardwareModel M] (b : Bench M) (arrivals : Arrivals) :
    (b.turn arrivals).1.probe = (b.midway arrivals).1.probe := by
  cases hcause : (b.midway arrivals).1.cause? arrivals.stop (b.midway arrivals).2 with
  | some cause => rw [turn_of_cause hcause]
  | none =>
    obtain ⟨_, _, hadvance, -⟩ := advance_eq (b.midway arrivals).1
    rw [turn_of_none hcause, hadvance]

/-- Debugging through the bench is debugging the port directly.  Whatever clients do and whenever
they do it, at every evaluation from the release of reset on the port is the one that the server
clocks directly, with its output on the pin, and the server is the same after every iteration.  In a
session of one client the port sees each level of the client's requests once, in one phase after
another unless a write blocks, and the bits of the replies are its outputs in the low phases. -/
theorem debugging_is_direct {around : Surroundings} {config : Config} {allocation : Gpio.Allocation}
    {f : Fixture EchoSoc} {b : Bench EchoSoc} {baudRate : UInt32} {clockPeriod : Nat}
    (hf : f.TapWired) (hmodel : f.model = .powerUp baudRate clockPeriod)
    (henabled : config.jtag.enabled = true) (hstart : start around config allocation f = .ok b)
    (schedule : Schedule) (n : Nat) (c : Bench EchoSoc) (hc : Reaches schedule b n c) :
    let interface : Net.Interface := if config.jtag.loopbackOnly then .loopback else .any
    let direct (k : Nat) : Direct :=
      (Direct.start (.listen interface around.reachable) echoSocIdcode).run
        (config.momentsBefore schedule k)
    (config.reset.releaseTime.toNat ≤ config.instant n →
        (c.settled (schedule n)).fixture.model.tap = (direct n).tap ∧
          ((c.settled (schedule n)).fixture.read .jtagTdo).isHigh = (direct n).tap.tdo) ∧
      (c.turn (schedule n)).1.probe = some ⟨(direct (n + 1)).server, config.gate⟩ ∧
      ∀ (client : Nat) (before after : List Moment), around.reachable = true →
        config.momentsBefore schedule (n + 1) = before ++ .client (.connect client) :: after →
        (∀ m ∈ before, ∃ cycle, m = .phase cycle) → Session client false after →
        ∃ k, Direct.Clocked ((Tap.powerUp echoSocIdcode).see .idle) client
            (after.flatMap Moment.bytes) k (direct (n + 1)) ∧
          (after.any Moment.limits = false →
            k = clockedAfter [] 0 after ∧ (direct (n + 1)).server.outbox = []) := by
  intro interface direct
  obtain ⟨hfirst, hheld⟩ := start_debugs hf hmodel henabled hstart
  have htime := start_time hstart
  obtain rfl := start_config hstart
  obtain ⟨rfl, -⟩ := reaches_iff.mp hc
  obtain ⟨hdebugs, hkept⟩ := course_debugs hfirst hheld htime schedule n
  have hconfig := course_config schedule b n
  have hnow : (course schedule b n).time.now = b.config.instant n := by
    rw [course_time htime]
  rw [← hnow, ← congrArg (·.reset.releaseTime.toNat) hconfig] at hkept
  refine ⟨fun hreleased => ?_, ?_, ?_⟩
  · obtain ⟨hsettled, hlevel, hshows⟩ := hdebugs.settled (schedule n) hkept
    rw [hconfig, hnow, decide_eq_true hreleased] at hlevel
    have htap := (hshows hlevel).tap_eq
    have htdo := (hshows hlevel).tdo_eq
    rw [Direct.tap_run_clients] at htap htdo
    exact ⟨htap, hsettled.wired.read_tdo.trans htdo⟩
  · have hmidway := (hdebugs.midway (schedule n) hkept).1
    rw [hconfig, hnow, ← Direct.run_append, ← Config.momentsBefore_succ] at hmidway
    rw [turn_probe, hmidway.probe_eq, (midway_eq _ _).1, hconfig]
  · intro client before after hreachable hmoments hbefore hafter
    have hclocked := Direct.run_session interface echoSocIdcode client hbefore hafter
    simp only [direct]
    rw [hmoments, hreachable]
    exact hclocked

/-- A debug server with a phase of the test clock in every other iteration, and reset until the
second. -/
def debugged : Config :=
  { Config.standard with reset := ⟨20, true⟩, jtag := ⟨true, Config.defaultJtagPort, 2, true⟩ }

/-- A sequence of mode-select levels that makes the port capture its data register and shift it, and
then a scan of two bits, in two parts. -/
def scanParts : List UInt8 × List UInt8 :=
  ([1, 0, 0, 0, 2] ++ List.replicate 1023 0 ++ [1, 0, 0, 0, 4, 0, 0, 0] ++ [2, 0, 0, 0],
    List.replicate 1024 0 ++ [1, 0, 0, 0, 2, 0, 0, 0])

/-- The reply to the scan, with the first bits of the port's identification. -/
def scanReply : List UInt8 :=
  [2, 0, 0, 0] ++ List.replicate 512 0 ++ (3 :: List.replicate 511 0) ++ [1, 0, 0, 0] ++ [2, 0, 0, 0]

/-- A debugger connects right before iteration 3 and sends its requests in two parts. -/
def scanning : Schedule := fun n =>
  ⟨if n = 3 then [(.jtag, .connect 0), (.jtag, .send 0 scanParts.1)]
    else if n = 5 then [(.jtag, .send 0 scanParts.2)]
    else [], false⟩

/-- What happens to the debug server after the debugger has connected. -/
def scanMoments : List Moment :=
  [.client (.send 0 scanParts.1), .phase 2, .client (.send 0 scanParts.2)] ++
    [3, 4, 5, 6, 7, 8, 9, 10, 11, 12, 13].map .phase

theorem debugging_is_direct_scan :
    let direct (k : Nat) : Direct :=
      (Direct.start (.listen .loopback true) echoSocIdcode).run (debugged.momentsBefore scanning k)
    ∃ b c, (Fixture.standard .standard).TapWired ∧
      (Fixture.standard .standard).model = .powerUp Serial.defaultBaudRate defaultClockPeriod ∧
      debugged.jtag.enabled = true ∧
      start ⟨fun _ _ => true, true, true⟩ debugged .standard (Fixture.standard .standard) = .ok b ∧
      Reaches scanning b 26 c ∧ debugged.reset.releaseTime.toNat ≤ debugged.instant 26 ∧
      debugged.momentsBefore scanning (26 + 1) =
        [.phase 1] ++ .client (.connect 0) :: scanMoments ∧
      Session 0 false scanMoments ∧
      (c.settled (scanning 26)).fixture.model.tap = (direct 26).tap ∧
      (direct 26).tap.state = .shiftDr ∧
      (c.turn (scanning 26)).1.probe = some ⟨(direct (26 + 1)).server, debugged.gate⟩ ∧
      scanMoments.any Moment.limits = false ∧ clockedAfter [] 0 scanMoments = 12 ∧
      (direct (26 + 1)).server.listener.collectable 0 = scanReply ∧
      RepliesTo (portCapturing ((Tap.powerUp echoSocIdcode).see .idle) .idle
        (requests (scanMoments.flatMap Moment.bytes)) 12) scanReply := by
  intro direct
  have hrun : ((start ⟨fun _ _ => true, true, true⟩ debugged .standard
      (Fixture.standard .standard)).toOption.map fun b =>
        (List.range 26).map (causeAt? scanning b)) = some (List.replicate 26 none) := by
    decide +kernel
  obtain ⟨b, hb, hcauses⟩ := Option.map_eq_some_iff.mp hrun
  have hstart := eq_ok_of_toOption hb
  have hreaches : Reaches scanning b 26 (course scanning b 26) := reaches_course hcauses
  have hwired : (Fixture.standard .standard).TapWired := (Fixture.wired_standard _).tapWired
  have hmoments : debugged.momentsBefore scanning (26 + 1) =
      [.phase 1] ++ .client (.connect 0) :: scanMoments := by
    decide +kernel
  have hstate : (direct 26).tap.state = .shiftDr := by
    decide +kernel
  have hsession : Session 0 false scanMoments :=
    .send _ (.phase 2 (.send _ (.phases _ _ _)))
  have hfull : scanMoments.any Moment.limits = false := by decide +kernel
  have hcount : clockedAfter [] 0 scanMoments = 12 := by decide +kernel
  have hreply : RepliesTo (portCapturing ((Tap.powerUp echoSocIdcode).see .idle) .idle
      (requests (scanMoments.flatMap Moment.bytes)) 12) scanReply := by
    refine repliesTo_of_filled _ _ ?_
    simp only [Record.filled, Buffer.ofLevels, Buffer.ofBytes_nil]
    decide +kernel
  have hreleased : debugged.reset.releaseTime.toNat ≤ debugged.instant 26 := by decide
  obtain ⟨htap, hprobe, hclocked⟩ :=
    debugging_is_direct hwired rfl rfl hstart scanning 26 _ hreaches
  obtain ⟨k, hk, hall⟩ := hclocked 0 [.phase 1] scanMoments rfl hmoments
    (fun m hm => ⟨1, List.mem_singleton.mp hm⟩) hsession
  obtain ⟨hphases, hnothing⟩ := hall hfull
  have hnothing : (direct (26 + 1)).server.outbox = [] := hnothing
  have hreplies : RepliesTo (portCapturing ((Tap.powerUp echoSocIdcode).see .idle) .idle
      (requests (scanMoments.flatMap Moment.bytes)) k)
      ((direct (26 + 1)).server.listener.collectable 0 ++ (direct (26 + 1)).server.outbox) :=
    hk.repliesTo
  rw [hphases, hcount, hnothing, List.append_nil] at hreplies
  exact ⟨b, _, hwired, rfl, rfl, hstart, hreaches, hreleased, hmoments, hsession,
    (htap hreleased).1, hstate, hprobe, hfull, hcount, hreplies.unique hreply, hreply⟩

end Bench

end PinBench
