import PinBench.Proofs.Bench.Debugging
import PinBench.Proofs.Bench.Observers
import PinBench.Proofs.Bench.Recording
import PinBench.Proofs.Model.Logged

/-! Observation is passive.  A bench without its relay and its recording (`unobserved`) does in each
iteration what the bench does with them, as long as no observer sets inputs.  So two benches that
differ in nothing else go through the same states of the model, with the same calls
(`observing_changes_nothing`). -/

namespace PinBench

open Telemetry

/-- The configuration without telemetry and recording. -/
def Config.unobserved (c : Config) : Config :=
  { c with
    telemetry := { c.telemetry with enabled := false }
    trace := { c.trace with enabled := false } }

/-- The same happens to the debug server, and the stop flag is the same. -/
structure Arrivals.Alike (arrivals arrivals' : Arrivals) : Prop where
  debuggers : debuggerActions arrivals.actions = debuggerActions arrivals'.actions
  stop : arrivals.stop = arrivals'.stop

namespace Bench

variable {M : Type} [HardwareModel M] {around : Surroundings} {config config' : Config}
  {allocation : Gpio.Allocation} {f : Fixture M} {b b' c : Bench M} {schedule schedule' : Schedule}
  {n : Nat} {actions : List Net.ClientAction}

/-- The bench without its relay and its recording. -/
def unobserved (b : Bench M) : Bench M :=
  { b with config := b.config.unobserved, relay := none, recorder := none, refused := [] }

/-- Debuggers act in turn. -/
def hearDebuggers (b : Bench M) (actions : List Net.ClientAction) : Bench M :=
  { b with
    probe := b.probe.map fun p =>
      { p with
        server := { p.server with
          listener := actions.foldl Net.Listener.meet p.server.listener } } }

/-- The relay, if there is one, follows the streams of its observers, and none of them sets
inputs. -/
def Unmoved (actions : List Net.ClientAction) (b : Bench M) : Prop :=
  ∀ m, b.relay = some m → m.endpoint.Tracks actions ∧ Harmless actions

/-! ### The stages of an iteration -/

omit [HardwareModel M] in
theorem actAll_unobserved (b : Bench M) (actions : List (Transport × Net.ClientAction)) :
    (b.actAll actions).unobserved = b.unobserved.hearDebuggers (debuggerActions actions) := by
  induction actions generalizing b with
  | nil =>
    cases hprobe : b.probe <;> simp [actAll, hearDebuggers, unobserved, debuggerActions, hprobe]
  | cons a actions ih =>
    obtain ⟨transport, action⟩ := a
    rw [actAll_cons, ih]
    cases transport with
    | telemetry =>
      obtain ⟨refused, hact⟩ := actAll_observer b action
      rw [hact]
      rfl
    | jtag =>
      obtain ⟨refused, hact⟩ := actAll_debugger b action
      rw [hact]
      cases hprobe : b.probe <;> simp [unobserved, hearDebuggers, debuggerActions, hprobe]

theorem releaseReset_unobserved (b : Bench M) :
    b.releaseReset.unobserved = b.unobserved.releaseReset := by
  by_cases hrelease : b.released = false ∧ b.config.reset.releaseTime.toNat ≤ b.time.now
  · have hsame : b.unobserved.released = false ∧
        b.unobserved.config.reset.releaseTime.toNat ≤ b.unobserved.time.now := hrelease
    rw [releaseReset, releaseReset, if_pos hrelease, if_pos hsame]
    rfl
  · have hsame : ¬(b.unobserved.released = false ∧
        b.unobserved.config.reset.releaseTime.toNat ≤ b.unobserved.time.now) := hrelease
    rw [releaseReset, releaseReset, if_neg hrelease, if_neg hsame]

theorem settle_unobserved (b : Bench M) : b.settle.unobserved = b.unobserved.settle := rfl

theorem tickSerial_unobserved (b : Bench M) : b.tickSerial.unobserved = b.unobserved.tickSerial := by
  cases hserial : b.serial <;> simp [tickSerial, unobserved, hserial]

theorem tickProbe_unobserved (b : Bench M) :
    b.unobserved.tickProbe = (b.tickProbe.1.unobserved, b.tickProbe.2) := by
  cases hprobe : b.probe with
  | none => simp [tickProbe, unobserved, hprobe]
  | some p => cases hreleased : b.released <;> simp [tickProbe, unobserved, hprobe, hreleased]

/-- A relay whose observers set no inputs leaves the rest of the bench alone. -/
theorem tickRelay_unobserved (h : b.Unmoved actions) : b.tickRelay.unobserved = b.unobserved := by
  cases hrelay : b.tickingRelay? with
  | none => rw [tickRelay_of_none hrelay]
  | some m =>
    have hsilent : (m.tick b.time.now b.fixture).2 = b.fixture := by
      rw [tickingRelay?, Option.map_eq_some_iff] at hrelay
      obtain ⟨r, hr, rfl⟩ := hrelay
      obtain ⟨htracks, hharmless⟩ := h r hr
      split
      · exact Relay.tick_silent (Relay.tracks_pushByte htracks _ _) hharmless _ _
      · exact Relay.tick_silent htracks hharmless _ _
    rw [tickRelay_of_some hrelay, unobserved]
    simp only [hsilent]
    rfl

theorem exchange_unobserved (h : b.tickSerial.tickProbe.1.Unmoved actions) :
    b.unobserved.exchange = (b.exchange.1.unobserved, b.exchange.2) := by
  have hrelay := tickRelay_unobserved h
  have hnone : b.tickSerial.tickProbe.1.unobserved.tickRelay =
      b.tickSerial.tickProbe.1.unobserved := rfl
  rw [exchange, ← tickSerial_unobserved, tickOthers, tickProbe_unobserved]
  simp only [hnone]
  rw [← hrelay]
  rfl

omit [HardwareModel M] in
/-- What can be seen of a run is seen on the bench without its relay and its recording. -/
theorem eq_of_unobserved (h : b.unobserved = b'.unobserved) :
    b.time = b'.time ∧ b.fixture = b'.fixture ∧ b.received = b'.received := by
  have htime := congrArg Bench.time h
  have hfixture := congrArg Bench.fixture h
  have hreceived := congrArg Bench.received h
  exact ⟨htime, hfixture, hreceived⟩

theorem cause?_unobserved (b : Bench M) (stop : Bool) (request : Option Cause) :
    b.unobserved.cause? stop request = b.cause? stop request := rfl

theorem advance_unobserved (b : Bench M) : b.advance.unobserved = b.unobserved.advance := by
  have hstep : b.config.unobserved.timeStep = b.config.timeStep := rfl
  cases hcounter : b.counter <;> simp [advance, hcounter, unobserved, hstep]

omit [HardwareModel M] in
theorem shutdown_unobserved (b : Bench M) : b.shutdown.unobserved = b.unobserved.shutdown := by
  cases hdown : b.down <;> simp [shutdown, unobserved, hdown]

/-! ### One iteration -/

theorem Unmoved.beforeRelay (h : b.Unmoved actions) {arrivals : Arrivals}
    (hharmless : b.relay ≠ none → Harmless (actions ++ observerActions arrivals.actions)) :
    (b.beforeRelay arrivals).Unmoved (actions ++ observerActions arrivals.actions) := by
  intro m hm
  rw [beforeRelay_relay, Option.map_eq_some_iff] at hm
  obtain ⟨r, hr, rfl⟩ := hm
  refine ⟨(h r hr).1.meetAll _, hharmless ?_⟩
  rw [hr]
  exact Option.some_ne_none r

theorem Unmoved.midway (h : b.Unmoved actions) {arrivals : Arrivals}
    (hharmless : b.relay ≠ none → Harmless (actions ++ observerActions arrivals.actions)) :
    (b.midway arrivals).1.Unmoved (actions ++ observerActions arrivals.actions) := by
  intro m hm
  rw [midway_relay, Option.map_eq_some_iff] at hm
  obtain ⟨r, hr, rfl⟩ := hm
  rw [tickingRelay?, Option.map_eq_some_iff] at hr
  obtain ⟨r, hr, rfl⟩ := hr
  obtain ⟨htracks, hnever⟩ := h.beforeRelay hharmless r hr
  refine ⟨Relay.tracks_tick ?_ _ _, hnever⟩
  split
  · exact Relay.tracks_pushByte htracks _ _
  · exact htracks

/-- The relay and the recording do not matter to what an iteration comes to. -/
theorem midway_unobserved (h : b.Unmoved actions) {arrivals : Arrivals}
    (hharmless : b.relay ≠ none → Harmless (actions ++ observerActions arrivals.actions)) :
    (b.unobserved.hearDebuggers (debuggerActions arrivals.actions)).releaseReset.settle.exchange =
      ((b.midway arrivals).1.unobserved, (b.midway arrivals).2) := by
  have hsettled : (b.settled arrivals).unobserved =
      (b.unobserved.hearDebuggers (debuggerActions arrivals.actions)).releaseReset.settle := by
    rw [settled, settle_unobserved, releaseReset_unobserved, actAll_unobserved]
  rw [← hsettled]
  exact exchange_unobserved (h.beforeRelay hharmless)

/-! ### Whole runs -/

/-- No observer that the relay serves sets inputs in any iteration. -/
def HarmlessTo (b : Bench M) (schedule : Schedule) : Prop :=
  b.relay ≠ none → ∀ n, Harmless (observedBefore schedule n)

theorem course_relay_ne_none (schedule : Schedule) (b : Bench M) (n : Nat)
    (h : (course schedule b n).relay ≠ none) : b.relay ≠ none := by
  induction n with
  | zero => exact h
  | succ n ih =>
    apply ih
    intro hnone
    apply h
    rw [course_relay_succ, middle, midway_relay, tickingRelay?, beforeRelay_relay, hnone]
    rfl

theorem course_unmoved (h : b.Unmoved []) (hharmless : b.HarmlessTo schedule) (n : Nat) :
    (course schedule b n).Unmoved (observedBefore schedule n) := by
  induction n with
  | zero => exact h
  | succ n ih =>
    have hnext : (course schedule b n).relay ≠ none →
        Harmless (observedBefore schedule n ++ observerActions (schedule n).actions) := by
      intro hrelay
      rw [← observedBefore_succ]
      exact hharmless (course_relay_ne_none schedule b n hrelay) (n + 1)
    have hmiddle := ih.midway hnext
    intro m hm
    rw [course_relay_succ] at hm
    rw [observedBefore_succ]
    exact hmiddle m hm

theorem middle_unobserved (h : b.Unmoved []) (hharmless : b.HarmlessTo schedule) (n : Nat) :
    ((course schedule b n).unobserved.hearDebuggers
        (debuggerActions (schedule n).actions)).releaseReset.settle.exchange =
      ((middle schedule b n).1.unobserved, (middle schedule b n).2) := by
  refine midway_unobserved (course_unmoved h hharmless n) fun hrelay => ?_
  rw [← observedBefore_succ]
  exact hharmless (course_relay_ne_none schedule b n hrelay) (n + 1)

/-- Two benches, each with its schedule, of which one may observe what the other does not. -/
structure Twins (schedule schedule' : Schedule) (b b' : Bench M) : Prop where
  same : b.unobserved = b'.unobserved
  alike : ∀ n, (schedule n).Alike (schedule' n)
  unmoved : b.Unmoved []
  unmoved' : b'.Unmoved []
  harmless : b.HarmlessTo schedule
  harmless' : b'.HarmlessTo schedule'

namespace Twins

/-- An iteration keeps what the two have in common. -/
theorem middle (h : Twins schedule schedule' b b')
    (hcourse : (course schedule b n).unobserved = (course schedule' b' n).unobserved) :
    (middle schedule b n).1.unobserved = (middle schedule' b' n).1.unobserved ∧
      (Bench.middle schedule b n).2 = (Bench.middle schedule' b' n).2 := by
  have hleft := middle_unobserved h.unmoved h.harmless n
  have hright := middle_unobserved h.unmoved' h.harmless' n
  rw [hcourse, (h.alike n).debuggers, hright, Prod.mk.injEq] at hleft
  exact ⟨hleft.1.symm, hleft.2.symm⟩

theorem course (h : Twins schedule schedule' b b') (n : Nat) :
    (course schedule b n).unobserved = (course schedule' b' n).unobserved := by
  induction n with
  | zero => exact h.same
  | succ n ih =>
    show (Bench.middle schedule b n).1.advance.unobserved =
      (Bench.middle schedule' b' n).1.advance.unobserved
    rw [advance_unobserved, advance_unobserved, (h.middle ih).1]

theorem causeAt? (h : Twins schedule schedule' b b') (n : Nat) :
    causeAt? schedule b n = causeAt? schedule' b' n := by
  obtain ⟨hbench, hrequest⟩ := h.middle (h.course n)
  rw [Bench.causeAt?, Bench.causeAt?, ← cause?_unobserved, hbench, hrequest, (h.alike n).stop,
    cause?_unobserved]

theorem ended (h : Twins schedule schedule' b b') (n : Nat) :
    (ended schedule b n).unobserved = (ended schedule' b' n).unobserved := by
  obtain ⟨hbench, -⟩ := h.middle (h.course n)
  have hfinish (c : Bench M) : ({ c with time := c.time.finish } : Bench M).unobserved =
      { c.unobserved with time := c.unobserved.time.finish } := rfl
  rw [Bench.ended, Bench.ended, hfinish, hfinish, hbench]

/-- A run of the one is a run of the other. -/
theorem run (h : Twins schedule schedule' b b') {fuel next : Nat} {report : Report}
    (hrun : run schedule 0 b fuel = some (report, c, next)) :
    ∃ c', Bench.run schedule' 0 b' fuel = some (report, c', next) ∧
      c'.unobserved = c.unobserved := by
  obtain ⟨n, hlt, rfl, hbefore, hcause, hconclude⟩ := run_eq_some_iff.mp hrun
  have hended := h.ended n
  rw [conclude, Prod.mk.injEq] at hconclude
  obtain ⟨hreport, rfl⟩ := hconclude
  refine ⟨(Bench.ended schedule' b' n).shutdown, run_eq_some_iff.mpr ⟨n, hlt, rfl, ?_, ?_, ?_⟩, ?_⟩
  · intro m hm
    rw [← h.causeAt?, hbefore m hm]
  · rw [← h.causeAt?, hcause]
  · obtain ⟨htime, -, hreceived⟩ := eq_of_unobserved hended
    rw [conclude, ← htime, ← hreceived, ← hreport]
  · rw [shutdown_unobserved, shutdown_unobserved, hended]

end Twins

/-! ### Starting -/

theorem unmoved_start (hstart : start around config allocation f = .ok b) : b.Unmoved [] := by
  obtain ⟨_, _, relay, _, -, -, hrelay, -, rfl⟩ := eq_of_start hstart
  intro m hm
  have hsome : relay = some m := hm
  rw [startRelay_eq hrelay] at hsome
  split at hsome
  · obtain rfl := Option.some.inj hsome
    exact ⟨Server.tracks_listen _ _ _, harmless_nil⟩
  · cases hsome

theorem harmlessTo_of_start (hstart : start around config allocation f = .ok b)
    (h : config.telemetry.enabled = true → ∀ n, Harmless (observedBefore schedule n)) :
    b.HarmlessTo schedule := by
  obtain ⟨_, _, relay, _, -, -, hrelay, -, rfl⟩ := eq_of_start hstart
  intro hne
  apply h
  cases henabled : config.telemetry.enabled with
  | true => rfl
  | false =>
    have hnone : relay = none := by rw [startRelay_eq hrelay, henabled, if_neg Bool.false_ne_true]
    exact absurd hnone hne

/-- A bench can observe what its configuration asks for: the file of the recording can be created,
and telemetry has its roles and its port. -/
structure CanObserve (around : Surroundings) (config : Config) (f : Fixture M) : Prop where
  trace : config.trace.enabled = true → around.traceWritable = true
  telemetry : config.telemetry.enabled = true →
    f.bound .gpioIn = true ∧ f.bound .gpioOut = true ∧ telemetryPortFree around config = true

omit [HardwareModel M] in
theorem CanObserve.exists_relay (h : CanObserve around config f) (allocation : Gpio.Allocation) :
    ∃ relay, startRelay around config allocation f = .ok relay := by
  unfold startRelay
  split
  · rename_i henabled
    obtain ⟨hin, hout, hport⟩ := h.telemetry henabled
    have hroles : requireAll f [.gpioIn, .gpioOut] = .ok () := by
      apply requireAll_of_bound
      simp [hin, hout]
    rw [hroles]
    simp only [hport, if_true]
    exact ⟨_, rfl⟩
  · exact ⟨none, rfl⟩

theorem CanObserve.exists_recorder (h : CanObserve around config f) :
    ∃ recorder, startRecorder around config f = .ok recorder := by
  unfold startRecorder
  split
  · rename_i henabled
    simp only [h.trace henabled, if_true]
    exact ⟨_, rfl⟩
  · exact ⟨none, rfl⟩

/-- A bench starts in the same way whether it observes or not. -/
theorem exists_twin (hconfig : config.unobserved = config'.unobserved)
    (hcan : CanObserve around config' f) (hstart : start around config allocation f = .ok b) :
    ∃ b', start around config' allocation f = .ok b' ∧ b.unobserved = b'.unobserved := by
  obtain ⟨relay', hrelay⟩ := hcan.exists_relay allocation
  obtain ⟨recorder', hrecorder⟩ := hcan.exists_recorder
  have hrequire := requireAll_of_start hstart
  obtain ⟨serial, probe, relay, recorder, hserial, hprobe, -, -, rfl⟩ := eq_of_start hstart
  have huart : config'.uart = config.uart := (congrArg Config.uart hconfig).symm
  have hjtag : config'.jtag = config.jtag := (congrArg Config.jtag hconfig).symm
  have hclock : config'.clock = config.clock := (congrArg Config.clock hconfig).symm
  have hreset : config'.reset = config.reset := (congrArg Config.reset hconfig).symm
  have hstimulus : config'.stimulus = config.stimulus := (congrArg Config.stimulus hconfig).symm
  have hserial' : startSerial config' f = .ok serial := by
    rw [← hserial, startSerial, startSerial, huart]
  have hprobe' : startProbe around config' f = .ok probe := by
    rw [← hprobe, startProbe, startProbe, hjtag, hclock]
  have hfirst : driveFirst config' serial.isSome probe.isSome f =
      driveFirst config serial.isSome probe.isSome f := by
    rw [driveFirst, driveFirst, hclock, hreset]
  have hcounter : startCounter config' allocation f = startCounter config allocation f := by
    rw [startCounter, startCounter, hstimulus]
  refine ⟨_, start_of_parts hrequire hserial' hprobe' hrelay hrecorder, ?_⟩
  simp only [unobserved, hconfig, hfirst, hcounter, hclock]

/-- Whether a bench records and whether it talks to observers who set no inputs makes no difference
to what its model is asked to do, nor to the levels, the time and the report of the run.  The model
keeps a log of its writes and evaluations, which is part of the fixture. -/
theorem observing_changes_nothing (hconfig : config.unobserved = config'.unobserved)
    (hcan : CanObserve around config' f) (halike : ∀ n, (schedule n).Alike (schedule' n))
    (hharmless : config.telemetry.enabled = true → ∀ n, Harmless (observedBefore schedule n))
    (hharmless' : config'.telemetry.enabled = true → ∀ n, Harmless (observedBefore schedule' n))
    {b : Bench (Logged M)} (hstart : start around config allocation f.logged = .ok b) :
    ∃ b', start around config' allocation f.logged = .ok b' ∧
      (∀ n c, Reaches schedule b n c → ∃ c', Reaches schedule' b' n c' ∧
        c'.time = c.time ∧ c'.fixture = c.fixture) ∧
      ∀ fuel report c next, run schedule 0 b fuel = some (report, c, next) →
        ∃ c', run schedule' 0 b' fuel = some (report, c', next) ∧
          c'.time = c.time ∧ c'.fixture = c.fixture := by
  have hlogged : CanObserve around config' f.logged := ⟨hcan.trace, hcan.telemetry⟩
  obtain ⟨b', hstart', hsame⟩ := exists_twin hconfig hlogged hstart
  have htwins : Twins schedule schedule' b b' :=
    { same := hsame
      alike := halike
      unmoved := unmoved_start hstart
      unmoved' := unmoved_start hstart'
      harmless := harmlessTo_of_start hstart hharmless
      harmless' := harmlessTo_of_start hstart' hharmless' }
  refine ⟨b', hstart', ?_, ?_⟩
  · intro n c hc
    obtain ⟨rfl, hbefore⟩ := reaches_iff.mp hc
    obtain ⟨htime, hfixture, -⟩ := eq_of_unobserved (htwins.course n)
    refine ⟨_, reaches_iff.mpr ⟨rfl, ?_⟩, htime.symm, hfixture.symm⟩
    intro m hm
    rw [← htwins.causeAt?]
    exact hbefore m hm
  · intro fuel report c next hrun
    obtain ⟨c', hrun', hended⟩ := htwins.run hrun
    obtain ⟨htime, hfixture, -⟩ := eq_of_unobserved hended
    exact ⟨c', hrun', htime, hfixture⟩

/-- The debug server, no reset and a limit of 40 with a time step of 10. -/
def blind : Config :=
  { Config.standard with
    reset := ⟨0, true⟩
    jtag := { Config.standard.jtag with enabled := true }
    timeout := 40 }

/-- The same with telemetry and a recording. -/
def watchful : Config :=
  { blind with
    telemetry := { blind.telemetry with enabled := true }
    trace := { blind.trace with enabled := true } }

/-- A debugger connects before iteration 1. -/
def debuggedOnly : Schedule := fun n =>
  if n = 1 then ⟨[(.jtag, .connect 1)], false⟩ else ⟨[], false⟩

/-- So does an observer, who says "hi" and nothing else. -/
def debuggedAndWatched : Schedule := fun n =>
  if n = 1 then
    ⟨[(.telemetry, .connect 2), (.jtag, .connect 1), (.telemetry, .send 2 [104, 105, 10])], false⟩
  else ⟨[], false⟩

theorem harmless_debuggedAndWatched (n : Nat) :
    Harmless (observedBefore debuggedAndWatched n) := by
  have hbefore : observedBefore debuggedAndWatched n =
      if n ≤ 1 then [] else [.connect 2, .send 2 [104, 105, 10]] := by
    induction n with
    | zero => rfl
    | succ n ih =>
      rw [observedBefore_succ, ih]
      by_cases hone : n = 1
      · subst hone
        rfl
      · have hquiet : observerActions (debuggedAndWatched n).actions = [] := by
          rw [debuggedAndWatched, if_neg hone]
          rfl
        rw [hquiet, List.append_nil]
        split <;> split <;> first | rfl | omega
  rw [hbefore]
  split
  · exact harmless_nil
  · rintro client stream ⟨before, after, hsplit, rfl⟩
    have hafter : client = 2 ∧ after = [.send 2 [104, 105, 10]] := by
      cases before with
      | nil => simpa [eq_comm] using hsplit
      | cons action before => cases before <;> simp at hsplit
    obtain ⟨rfl, rfl⟩ := hafter
    decide +kernel

/-- A run with telemetry, a recording and a chatting observer, against the same run without. -/
theorem observing_changes_nothing_chatter :
    ∃ b b' report c c', start ⟨fun _ _ => true, true, true⟩ blind .standard
        (Fixture.standard .standard).logged = .ok b ∧
      start ⟨fun _ _ => true, true, true⟩ watchful .standard
        (Fixture.standard .standard).logged = .ok b' ∧
      run debuggedOnly 0 b 9 = some (report, c, 5) ∧
      run debuggedAndWatched 0 b' 9 = some (report, c', 5) ∧
      c'.time = c.time ∧ c'.fixture = c.fixture := by
  have hrun : (start ⟨fun _ _ => true, true, true⟩ blind .standard
      (Fixture.standard Model.EchoSoc.standard).logged).toOption.bind
        (fun b => (run debuggedOnly 0 b 9).map (·.2.2)) = some 5 := by
    decide +kernel
  obtain ⟨b, hb, hmap⟩ := Option.bind_eq_some_iff.mp hrun
  obtain ⟨⟨report, c, _⟩, hrun, rfl⟩ := Option.map_eq_some_iff.mp hmap
  have hstart := eq_ok_of_toOption hb
  have hconfig : blind.unobserved = watchful.unobserved := rfl
  have hcan : CanObserve ⟨fun _ _ => true, true, true⟩ watchful
      (Fixture.standard Model.EchoSoc.standard) :=
    ⟨fun _ => rfl, fun _ => ⟨rfl, rfl, rfl⟩⟩
  have halike : ∀ n, (debuggedOnly n).Alike (debuggedAndWatched n) := by
    intro n
    by_cases hone : n = 1
    · subst hone
      exact ⟨rfl, rfl⟩
    · rw [debuggedOnly, debuggedAndWatched, if_neg hone, if_neg hone]
      exact ⟨rfl, rfl⟩
  obtain ⟨b', hstart', -, hruns⟩ := observing_changes_nothing hconfig hcan halike
    (fun henabled => nomatch henabled) (fun _ => harmless_debuggedAndWatched) hstart
  obtain ⟨c', hrun', htime, hfixture⟩ := hruns _ _ _ _ hrun
  exact ⟨b, b', report, c, c', hstart, hstart', hrun, hrun', htime, hfixture⟩

end Bench

end PinBench
