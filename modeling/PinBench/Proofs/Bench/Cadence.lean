import PinBench.Proofs.Bench.Debugging
import PinBench.Proofs.Bench.Observers
import PinBench.Proofs.Bench.Sequencing
import PinBench.Proofs.Jtag.Turns

/-! When the debug server steps.  The gate in front of it goes by the time, the bench by its
iterations: the gate's period is a number of time steps, so it opens in every iteration whose number
is a multiple of that (`cycle?_instant`).  A time step of zero is the exception.  The bench counts
it as one, the gate does not, and opens in every iteration.

`phases_on_cadence` says what that makes of a run: what clients do and the phases of the test clock
are all that happens to the server, and the phases are numbered one after another. -/

namespace PinBench

open Jtag

namespace Config

/-- The iterations from one phase of the test clock to the next. -/
def phaseSpacing (c : Config) : Nat := if c.clock.timeStep = 0 then 1 else c.jtag.divisor.toNat

/-- The phase of the test clock in iteration `n`. -/
def phaseIn? (c : Config) (n : Nat) : Option Nat :=
  if c.reset.releaseTime.toNat ≤ n * c.timeStep ∧ c.phaseSpacing ∣ n then some (n / c.phaseSpacing)
  else none

/-- The gate's period in time steps of the bench. -/
theorem gate_period {c : Config} (h : 1 ≤ c.jtag.divisor.toNat)
    (hcap : c.jtag.divisor.toNat * c.clock.timeStep.toNat ≤ Time.latest) :
    c.gate.period = c.phaseSpacing * c.timeStep := by
  rw [gate, Gate.every, Nat.min_eq_left hcap, phaseSpacing, timeStep]
  by_cases hzero : c.clock.timeStep = 0
  · rw [if_pos hzero, hzero]
    rfl
  · have hpos : 1 ≤ c.clock.timeStep.toNat :=
      Nat.pos_of_ne_zero fun h => hzero (UInt64.toNat_inj.mp h)
    rw [if_neg hzero, Nat.max_eq_left hpos, Nat.max_eq_left (Nat.mul_pos h hpos)]

/-- Between multiples of the spacing the gate is closed. -/
theorem cycle?_instant {c : Config} (h : 1 ≤ c.jtag.divisor.toNat)
    (hcap : c.jtag.divisor.toNat * c.clock.timeStep.toNat ≤ Time.latest) {n : Nat}
    (hn : n * c.timeStep ≤ Time.latest) :
    c.gate.cycle? (c.instant n) =
      if c.phaseSpacing ∣ n then some (n / c.phaseSpacing) else none := by
  have hdvd : n * c.timeStep % (c.phaseSpacing * c.timeStep) = 0 ↔ c.phaseSpacing ∣ n := by
    rw [← Nat.dvd_iff_mod_eq_zero, Nat.mul_dvd_mul_iff_right c.timeStep_pos]
  rw [Gate.cycle?, gate_period h hcap, instant, Nat.min_eq_left hn,
    Nat.mul_div_mul_right _ _ c.timeStep_pos]
  by_cases hmultiple : c.phaseSpacing ∣ n
  · rw [if_pos (hdvd.mpr hmultiple), if_pos hmultiple]
  · rw [if_neg (mt hdvd.mp hmultiple), if_neg hmultiple]

/-- No phase is left out or comes twice. -/
theorem filterMap_phaseIn? (c : Config) (n : Nat) :
    (List.range (n + 1)).filterMap c.phaseIn? =
      (List.range (n / c.phaseSpacing + 1)).filter fun k =>
        c.reset.releaseTime.toNat ≤ k * c.phaseSpacing * c.timeStep := by
  induction n with
  | zero =>
    rw [Nat.zero_div, Nat.zero_add, List.range_one, List.filter_singleton, Nat.zero_mul]
    by_cases hdue : c.reset.releaseTime.toNat = 0
    · simp [phaseIn?, hdue]
    · simp [phaseIn?, hdue]
  | succ n ih =>
    rw [List.range_succ, List.filterMap_append, ih]
    by_cases hmultiple : c.phaseSpacing ∣ n + 1
    · have hquotient : (n + 1) / c.phaseSpacing = n / c.phaseSpacing + 1 := by
        rw [Nat.succ_div, if_pos hmultiple]
      have hback : (n / c.phaseSpacing + 1) * c.phaseSpacing = n + 1 := by
        rw [← hquotient, Nat.div_mul_cancel hmultiple]
      rw [hquotient, List.range_succ (n := n / c.phaseSpacing + 1), List.filter_append,
        List.filter_singleton, hback]
      congr 1
      by_cases hdue : c.reset.releaseTime.toNat ≤ (n + 1) * c.timeStep
      · simp [phaseIn?, hdue, hmultiple, hquotient]
      · simp [phaseIn?, hdue]
    · rw [Nat.succ_div, if_neg hmultiple, Nat.add_zero]
      simp [phaseIn?, hmultiple]

end Config

/-- The number of the phase, if an event is a step. -/
def Jtag.Event.cycle? : Event → Option Nat
  | .step cycle _ => some cycle
  | .client _ | .close => none

namespace Bench

variable {M : Type} [HardwareModel M] {around : Surroundings} {config : Config}
  {allocation : Gpio.Allocation} {f : Fixture M} {b c : Bench M} {schedule : Schedule} {n : Nat}
  {s : Server} {g : Gate}

/-! ### The server in one iteration -/

omit [HardwareModel M] in
theorem actAll_probe (b : Bench M) (actions : List (Transport × Net.ClientAction)) :
    (b.actAll actions).probe = b.probe.map fun p =>
      { p with server := p.server.run ((debuggerActions actions).map .client) } := by
  induction actions generalizing b with
  | nil => simp [actAll, debuggerActions, Server.run]
  | cons a actions ih =>
    obtain ⟨transport, action⟩ := a
    rw [actAll_cons, ih]
    cases transport with
    | jtag =>
      obtain ⟨refused, hact⟩ := actAll_debugger b action
      rw [hact, Option.map_map]
      simp only [Function.comp_def, ← Server.meet_client]
      rfl
    | telemetry =>
      obtain ⟨refused, hact⟩ := actAll_observer b action
      rw [hact]
      rfl

/-- The output of the test access port in iteration `n`, as the probe finds it. -/
def portOutput (schedule : Schedule) (b : Bench M) (n : Nat) : Bool :=
  (((course schedule b n).settled (schedule n)).tickSerial.fixture.read .jtagTdo).isHigh

/-- A tick of the probe is a step of its server if the gate is open and the model out of reset. -/
theorem tickProbe_server (h : b.probe = some ⟨s, g⟩) :
    b.tickProbe.1.probe = some ⟨s.run ((if b.released then (g.cycle? b.time.now).toList else []).map
      fun cycle => .step cycle (b.fixture.read .jtagTdo).isHigh), g⟩ := by
  simp only [tickProbe, h]
  cases b.released with
  | false => exact h
  | true =>
    simp only [if_true, Probe.tick]
    cases g.cycle? b.time.now with
    | none => rfl
    | some cycle => rfl

theorem midway_server (h : b.probe = some ⟨s, g⟩) (arrivals : Arrivals) :
    (b.midway arrivals).1.probe = some ⟨(s.run ((debuggerActions arrivals.actions).map .client)).run
      ((if (b.settled arrivals).released then (g.cycle? b.time.now).toList else []).map
        fun cycle => .step cycle ((b.settled arrivals).tickSerial.fixture.read .jtagTdo).isHigh),
      g⟩ := by
  have hsettled : (b.settled arrivals).probe =
      some ⟨s.run ((debuggerActions arrivals.actions).map .client), g⟩ := by
    obtain ⟨-, -, hprobe⟩ := releaseReset_settle_eq (b.actAll arrivals.actions)
    rw [settled, hprobe, actAll_probe, h]
    rfl
  obtain ⟨serial, fixture, hserial, -⟩ := tickSerial_frame (b.settled arrivals)
  have htime : (b.settled arrivals).tickSerial.time = b.time := by
    obtain ⟨_, _, _, _, _, _, hsame⟩ := settled_eq b arrivals
    rw [hserial, hsame]
  have hreleased : (b.settled arrivals).tickSerial.released = (b.settled arrivals).released := by
    rw [hserial]
  have hprobe := tickProbe_server ((tickSerial_keeps (b.settled arrivals)).2.2.trans hsettled)
  rw [htime, hreleased] at hprobe
  obtain ⟨relay, _, hrelay, -⟩ := tickRelay_eq (b.settled arrivals).tickSerial.tickProbe.1
  have hexchange : (b.midway arrivals).1.probe =
      (b.settled arrivals).tickSerial.tickProbe.1.tickRelay.probe := rfl
  rw [hexchange, hrelay]
  exact hprobe

theorem advance_probe (b : Bench M) : b.advance.probe = b.probe := by
  obtain ⟨_, _, hadvance, -⟩ := advance_eq b
  rw [hadvance]

/-! ### The server along a run -/

/-- What happens to the debug server in iteration `n`: clients act, and a phase of the test clock
may come. -/
def serverEvents (schedule : Schedule) (b : Bench M) (n : Nat) : List Event :=
  (debuggerActions (schedule n).actions).map .client ++
    (b.config.phaseIn? n).toList.map fun cycle => .step cycle (portOutput schedule b n)

/-- What happens to the debug server before iteration `n`. -/
def serverEventsBefore (schedule : Schedule) (b : Bench M) (n : Nat) : List Event :=
  (List.range n).flatMap (serverEvents schedule b)

theorem serverEventsBefore_succ (schedule : Schedule) (b : Bench M) (n : Nat) :
    serverEventsBefore schedule b (n + 1) =
      serverEventsBefore schedule b n ++ serverEvents schedule b n := by
  simp only [serverEventsBefore, List.range_succ, List.flatMap_append, List.flatMap_cons,
    List.flatMap_nil, List.append_nil]

theorem middle_server (hheld : b.released = false) (htime : b.time = .start b.config.clock.startsHigh)
    (hdivisor : 1 ≤ b.config.jtag.divisor.toNat)
    (hperiod : b.config.jtag.divisor.toNat * b.config.clock.timeStep.toNat ≤ Time.latest)
    (hn : n * b.config.timeStep ≤ Time.latest)
    (hprobe : (course schedule b n).probe = some ⟨s, b.config.gate⟩) :
    (middle schedule b n).1.probe = some ⟨s.run (serverEvents schedule b n), b.config.gate⟩ := by
  have hnow : (course schedule b n).time.now = b.config.instant n := by rw [course_time htime]
  have hphase : (if ((course schedule b n).settled (schedule n)).released then
      (b.config.gate.cycle? (course schedule b n).time.now).toList else []) =
        (b.config.phaseIn? n).toList := by
    rw [course_released hheld htime, hnow, Config.cycle?_instant hdivisor hperiod hn,
      Config.phaseIn?]
    by_cases hdue : b.config.reset.releaseTime.toNat ≤ n * b.config.timeStep
    · rw [decide_eq_true ((due_iff _ _).mpr hdue), if_pos rfl]
      simp only [hdue, true_and]
    · rw [decide_eq_false (mt (due_iff _ _).mp hdue), if_neg Bool.false_ne_true]
      simp only [hdue, false_and, if_false, Option.toList_none]
  rw [middle, midway_server hprobe, hphase, serverEvents, Server.run_append]
  rfl

/-- What one iteration does to the server, a whole run does. -/
theorem course_server (hheld : b.released = false) (htime : b.time = .start b.config.clock.startsHigh)
    (hdivisor : 1 ≤ b.config.jtag.divisor.toNat)
    (hperiod : b.config.jtag.divisor.toNat * b.config.clock.timeStep.toNat ≤ Time.latest)
    (hprobe : b.probe = some ⟨s, b.config.gate⟩) (hn : n * b.config.timeStep ≤ Time.latest) :
    (course schedule b n).probe =
      some ⟨s.run (serverEventsBefore schedule b n), b.config.gate⟩ := by
  induction n with
  | zero => exact hprobe
  | succ n ih =>
    have hbefore : n * b.config.timeStep ≤ Time.latest :=
      Nat.le_trans (Nat.mul_le_mul_right _ (Nat.le_succ n)) hn
    have hmiddle := middle_server hheld htime hdivisor hperiod hbefore (ih hbefore)
    have hsucc : (course schedule b (n + 1)).probe = (middle schedule b n).1.probe :=
      advance_probe _
    rw [hsucc, hmiddle, serverEventsBefore_succ, Server.run_append]

theorem cycles_serverEventsBefore (schedule : Schedule) (b : Bench M) (n : Nat) :
    (serverEventsBefore schedule b n).filterMap Event.cycle? =
      (List.range n).filterMap b.config.phaseIn? := by
  have hone (k : Nat) : (serverEvents schedule b k).filterMap Event.cycle? =
      (b.config.phaseIn? k).toList := by
    rw [serverEvents, List.filterMap_append, List.filterMap_map, List.filterMap_map]
    simp [Function.comp_def, Event.cycle?]
  rw [serverEventsBefore, List.filterMap_flatMap, List.filterMap_eq_flatMap_toList]
  simp only [hone]

/-- Clients and the test clock are all that there is to the debug server: from the release of reset
on it steps in just those iterations that the spacing divides, with the quotient as the number of
the phase.  So the phases of a run are numbered one after another. -/
theorem phases_on_cadence (hstart : start around config allocation f = .ok b)
    (henabled : config.jtag.enabled = true) (hdivisor : 1 ≤ config.jtag.divisor.toNat)
    (hperiod : config.jtag.divisor.toNat * config.clock.timeStep.toNat ≤ Time.latest)
    (hc : Reaches schedule b n c) (hn : n * config.timeStep ≤ Time.latest) :
    (c.turn (schedule n)).1.probe =
        some ⟨(Server.listen (if config.jtag.loopbackOnly then .loopback else .any)
          around.reachable).run (serverEventsBefore schedule b (n + 1)), config.gate⟩ ∧
      (serverEventsBefore schedule b (n + 1)).filterMap Event.cycle? =
        (List.range (n / config.phaseSpacing + 1)).filter fun k =>
          config.reset.releaseTime.toNat ≤ k * config.phaseSpacing * config.timeStep := by
  have htime := start_time hstart
  obtain ⟨serial, probe, relay, recorder, -, hprobe, -, -, rfl⟩ := eq_of_start hstart
  obtain rfl := startProbe_eq hprobe henabled
  obtain ⟨rfl, -⟩ := reaches_iff.mp hc
  constructor
  · have hcourse : (course schedule _ n).probe = _ :=
      course_server rfl htime hdivisor hperiod rfl hn
    rw [turn_probe]
    have hmiddle := middle_server rfl htime hdivisor hperiod hn hcourse
    rw [serverEventsBefore_succ, Server.run_append]
    exact hmiddle
  · rw [cycles_serverEventsBefore]
    exact Config.filterMap_phaseIn? _ n

/-- A debug server that is to step in every other iteration, with a time step of zero. -/
def frozen : Config :=
  { Config.standard with
    clock := ⟨0, true⟩, reset := ⟨0, true⟩, jtag := ⟨true, Config.defaultJtagPort, 2, true⟩ }

/-- With a time step of zero the server steps in every iteration, although every other one is asked
for.  With a time step of ten it steps in every other one. -/
theorem phases_on_cadence_twoSteps : ∃ b c b' c',
    start ⟨fun _ _ => true, true, true⟩ frozen .standard (Fixture.standard .standard) = .ok b ∧
      frozen.jtag.enabled = true ∧ 1 ≤ frozen.jtag.divisor.toNat ∧
      frozen.jtag.divisor.toNat * frozen.clock.timeStep.toNat ≤ Time.latest ∧
      Reaches quiet b 3 c ∧ 3 * frozen.timeStep ≤ Time.latest ∧
      (c.turn (quiet 3)).1.probe = some
        ⟨(Server.listen .loopback true).run (serverEventsBefore quiet b 4), frozen.gate⟩ ∧
      (serverEventsBefore quiet b 4).filterMap Event.cycle? = [0, 1, 2, 3] ∧
    start ⟨fun _ _ => true, true, true⟩ debugged .standard (Fixture.standard .standard) = .ok b' ∧
      debugged.jtag.enabled = true ∧ 1 ≤ debugged.jtag.divisor.toNat ∧
      debugged.jtag.divisor.toNat * debugged.clock.timeStep.toNat ≤ Time.latest ∧
      Reaches scanning b' 10 c' ∧ 10 * debugged.timeStep ≤ Time.latest ∧
      (c'.turn (scanning 10)).1.probe = some
        ⟨(Server.listen .loopback true).run (serverEventsBefore scanning b' 11), debugged.gate⟩ ∧
      (serverEventsBefore scanning b' 11).filterMap Event.cycle? = [1, 2, 3, 4, 5] := by
  have hfrozen : ((start ⟨fun _ _ => true, true, true⟩ frozen .standard
      (Fixture.standard .standard)).toOption.map fun b =>
        (List.range 3).map (causeAt? quiet b)) = some (List.replicate 3 none) := by
    decide +kernel
  have hdebugged : ((start ⟨fun _ _ => true, true, true⟩ debugged .standard
      (Fixture.standard .standard)).toOption.map fun b =>
        (List.range 10).map (causeAt? scanning b)) = some (List.replicate 10 none) := by
    decide +kernel
  obtain ⟨b, hb, hcauses⟩ := Option.map_eq_some_iff.mp hfrozen
  obtain ⟨b', hb', hcauses'⟩ := Option.map_eq_some_iff.mp hdebugged
  have hstart := eq_ok_of_toOption hb
  have hstart' := eq_ok_of_toOption hb'
  have hreaches : Reaches quiet b 3 (course quiet b 3) := reaches_course hcauses
  have hreaches' : Reaches scanning b' 10 (course scanning b' 10) := reaches_course hcauses'
  obtain ⟨hserver, hcycles⟩ :=
    phases_on_cadence hstart rfl (by decide) (by decide) hreaches (by decide)
  obtain ⟨hserver', hcycles'⟩ :=
    phases_on_cadence hstart' rfl (by decide) (by decide) hreaches' (by decide)
  exact ⟨b, _, b', _, hstart, rfl, by decide, by decide, hreaches, by decide, hserver, hcycles,
    hstart', rfl, by decide, by decide, hreaches', by decide, hserver', hcycles'⟩

end Bench

end PinBench
