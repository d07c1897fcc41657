import PinBench.Bench.Run
import PinBench.Proofs.Pins.Driving

/-! What each stage of an iteration may change.  Clients act on the servers alone.  The serial link,
the probe and the relay change themselves and the roles that they drive, and so do the clock and the
counter at the end.  `Reaches` says which benches a run goes through. -/

namespace PinBench.Bench

variable {M : Type} [HardwareModel M]

/-! ### Starting -/

omit [HardwareModel M] in
theorem requireAll_of_bound {f : Fixture M} {roles : List Role}
    (h : ∀ role ∈ roles, f.bound role = true) : requireAll f roles = .ok () := by
  induction roles with
  | nil => rfl
  | cons role roles ih =>
    have hrequire : (f.require role).mapError StartError.pin = .ok () := by
      rw [Fixture.require, if_pos (h role List.mem_cons_self)]
      rfl
    have hcons : requireAll f (role :: roles) =
        (f.require role).mapError StartError.pin >>= fun _ => requireAll f roles := by
      simp only [requireAll, List.forM_eq_forM, List.forM_cons]
    rw [hcons, hrequire]
    exact ih fun other hother => h other (List.mem_cons_of_mem role hother)

/-! ### One stage -/

omit [HardwareModel M] in
theorem act_eq {b c : Bench M} {transport : Transport} {action : Net.ClientAction}
    (h : b.act transport action = .ok c) :
    ∃ probe relay, c = { b with probe, relay } ∧ probe.isSome = b.probe.isSome ∧
      relay.isSome = b.relay.isSome := by
  unfold act at h
  split at h
  · rename_i listener _
    cases hact : listener.act action with
    | error e => simp [hact, Except.map] at h
    | ok l =>
      simp only [hact, Except.map, Except.ok.injEq] at h
      subst h
      cases transport with
      | jtag => exact ⟨_, b.relay, rfl, by simp, rfl⟩
      | telemetry => exact ⟨b.probe, _, rfl, rfl, by simp⟩
  · cases h

omit [HardwareModel M] in
theorem actAll_cons (b : Bench M) (a : Transport × Net.ClientAction)
    (actions : List (Transport × Net.ClientAction)) :
    b.actAll (a :: actions) = (b.actAll [a]).actAll actions := rfl

omit [HardwareModel M] in
/-- What clients do changes the servers, and what has been refused. -/
theorem actAll_eq (b : Bench M) (actions : List (Transport × Net.ClientAction)) :
    ∃ probe relay refused, b.actAll actions = { b with probe, relay, refused } ∧
      probe.isSome = b.probe.isSome ∧ relay.isSome = b.relay.isSome := by
  induction actions generalizing b with
  | nil => exact ⟨b.probe, b.relay, b.refused, rfl, rfl, rfl⟩
  | cons a actions ih =>
    cases hact : b.act a.1 a.2 with
    | error e =>
      have hstep : b.actAll (a :: actions) =
          { b with refused := b.refused ++ [e] }.actAll actions := by
        simp only [actAll, List.foldl_cons, hact]
      obtain ⟨probe, relay, refused, heq, hp, hr⟩ := ih { b with refused := b.refused ++ [e] }
      exact ⟨probe, relay, refused, hstep.trans heq, hp, hr⟩
    | ok c =>
      have hstep : b.actAll (a :: actions) = c.actAll actions := by
        simp only [actAll, List.foldl_cons, hact]
      obtain ⟨probe, relay, rfl, hp, hr⟩ := act_eq hact
      obtain ⟨probe', relay', refused, heq, hp', hr'⟩ := ih { b with probe, relay }
      exact ⟨probe', relay', refused, hstep.trans heq, hp'.trans hp, hr'.trans hr⟩

theorem tickSerial_eq {b : Bench M} {p : Serial.Link} (h : b.serial = some p) :
    b.tickSerial = { b with
      serial := some (p.tick b.time.now b.fixture).1
      fixture := (p.tick b.time.now b.fixture).2 } := by
  simp only [tickSerial, h]

/-- The serial link changes itself and the line into the model. -/
theorem tickSerial_frame (b : Bench M) :
    ∃ serial fixture, b.tickSerial = { b with serial, fixture } ∧
      Fixture.DrivesOnly (· = .uartRx) b.fixture fixture := by
  cases hserial : b.serial with
  | none =>
    have heq : b.tickSerial = b := by simp only [tickSerial, hserial]
    exact ⟨b.serial, b.fixture, heq, .refl⟩
  | some p => exact ⟨_, _, tickSerial_eq hserial, Fixture.link_tick_drivesOnly _ _ _⟩

theorem tickSerial_keeps (b : Bench M) :
    b.tickSerial.config = b.config ∧ b.tickSerial.time = b.time ∧
      b.tickSerial.probe = b.probe := by
  obtain ⟨serial, fixture, hserial, -⟩ := tickSerial_frame b
  rw [hserial]
  exact ⟨rfl, rfl, rfl⟩

theorem tickProbe_eq (b : Bench M) :
    ∃ probe fixture, b.tickProbe.1 = { b with probe, fixture } ∧
      Fixture.DrivesOnly Fixture.isProbeLine b.fixture fixture ∧ probe.isSome = b.probe.isSome := by
  unfold tickProbe
  split
  · rename_i p hp
    split
    · exact ⟨_, _, rfl, Fixture.probe_tick_drivesOnly _ _ _, by simp [hp]⟩
    · exact ⟨b.probe, b.fixture, rfl, .refl, rfl⟩
  · exact ⟨b.probe, b.fixture, rfl, .refl, rfl⟩

theorem tickProbe_request {b : Bench M} (h : b.probe = none) : b.tickProbe.2 = none := by
  simp only [tickProbe, h]

theorem tickRelay_eq (b : Bench M) :
    ∃ relay fixture, b.tickRelay = { b with relay, fixture } ∧
      Fixture.DrivesOnly (· = .gpioIn) b.fixture fixture := by
  cases hrelay : b.relay with
  | none =>
    have heq : b.tickRelay = b := by simp only [tickRelay, hrelay]
    exact ⟨b.relay, b.fixture, heq, .refl⟩
  | some r =>
    obtain ⟨m, heq⟩ : ∃ m : Telemetry.Relay Telemetry.Server, b.tickRelay = { b with
        relay := some (m.tick b.time.now b.fixture).1
        fixture := (m.tick b.time.now b.fixture).2 } := by
      cases hbyte : b.serial.bind (·.lastReceived) with
      | none => exact ⟨r, by simp only [tickRelay, hrelay, hbyte]⟩
      | some byte => exact ⟨r.pushByte b.time.now byte, by simp only [tickRelay, hrelay, hbyte]⟩
    exact ⟨_, _, heq, Fixture.relay_tick_drivesOnly m b.time.now b.fixture⟩

/-- The roles that a bench drives after its serial link has ticked. -/
def isSideLine (role : Role) : Prop := Fixture.isProbeLine role ∨ role = .gpioIn

/-- What ticks after the serial link leaves the link alone. -/
theorem tickOthers_eq (b : Bench M) :
    ∃ probe relay monitor fixture,
      b.tickOthers.1 = { b with probe, relay, monitor, fixture } ∧
        Fixture.DrivesOnly isSideLine b.fixture fixture ∧ probe.isSome = b.probe.isSome := by
  obtain ⟨probe, g, hprobe, hg, hsome⟩ := tickProbe_eq b
  obtain ⟨relay, fixture, hrelay, hfixture⟩ := tickRelay_eq b.tickProbe.1
  refine ⟨probe, relay, (b.monitor.sample fixture).1, fixture, ?_, ?_, hsome⟩
  · simp only [tickOthers, hrelay]
    rw [hprobe]
  · rw [hprobe] at hfixture
    exact (hg.mono fun _ h => .inl h).trans (hfixture.mono fun _ h => .inr h)

theorem exchange_eq (b : Bench M) :
    ∃ probe relay monitor fixture,
      b.exchange.1 = { b.tickSerial with probe, relay, monitor, fixture } ∧
        Fixture.DrivesOnly isSideLine b.tickSerial.fixture fixture ∧
        probe.isSome = b.tickSerial.probe.isSome :=
  tickOthers_eq b.tickSerial

theorem exchange_frame (b : Bench M) :
    ∃ serial probe relay monitor fixture,
      b.exchange.1 = { b with serial, probe, relay, monitor, fixture } := by
  obtain ⟨probe, relay, monitor, fixture, hexchange, -⟩ := exchange_eq b
  obtain ⟨serial, _, hserial, -⟩ := tickSerial_frame b
  refine ⟨serial, probe, relay, monitor, fixture, ?_⟩
  rw [hexchange, hserial]

theorem exchange_request {b : Bench M} (h : b.probe = none) : b.exchange.2 = none := by
  exact tickProbe_request ((tickSerial_keeps b).2.2.trans h)

theorem advance_eq (b : Bench M) :
    ∃ counter fixture,
      b.advance = { b with
        time := b.time.toggle.advance b.config.timeStep, fixture, counter } ∧
        Fixture.DrivesOnly (· = .gpioIn) (b.fixture.drive .clock (!b.time.clock)) fixture := by
  unfold advance
  split
  · exact ⟨_, _, rfl, Fixture.counter_tick_drivesOnly _ _ _⟩
  · exact ⟨b.counter, _, rfl, .refl⟩

/-! ### One iteration -/

theorem releaseReset_eq (b : Bench M) :
    ∃ fixture released, b.releaseReset = { b with fixture, released } := by
  unfold releaseReset
  split
  · exact ⟨_, _, rfl⟩
  · exact ⟨b.fixture, b.released, rfl⟩

theorem releaseReset_settle_eq (b : Bench M) :
    b.releaseReset.settle.time = b.time ∧ b.releaseReset.settle.config = b.config ∧
      b.releaseReset.settle.probe = b.probe := by
  obtain ⟨fixture, released, heq⟩ := releaseReset_eq b
  rw [settle, heq]
  exact ⟨rfl, rfl, rfl⟩

/-- The bench of an iteration when it looks for a cause to end, and what the probe asks for. -/
def midway (b : Bench M) (arrivals : Arrivals) : Bench M × Option Cause :=
  (b.actAll arrivals.actions).releaseReset.settle.exchange

/-- Up to that point neither the configuration nor the time has changed. -/
theorem midway_eq (b : Bench M) (arrivals : Arrivals) :
    (b.midway arrivals).1.config = b.config ∧ (b.midway arrivals).1.time = b.time ∧
      (b.midway arrivals).1.probe.isSome = b.probe.isSome := by
  obtain ⟨probe, relay, refused, hact, hprobe, -⟩ := actAll_eq b arrivals.actions
  obtain ⟨htime, hconfig, hsame⟩ := releaseReset_settle_eq (b.actAll arrivals.actions)
  obtain ⟨_, _, _, _, hexchange, -, hsome⟩ :=
    exchange_eq (b.actAll arrivals.actions).releaseReset.settle
  obtain ⟨hserialConfig, hserialTime, hserialProbe⟩ :=
    tickSerial_keeps (b.actAll arrivals.actions).releaseReset.settle
  simp only [midway]
  rw [hexchange]
  refine ⟨?_, ?_, ?_⟩
  · rw [hserialConfig, hconfig, hact]
  · rw [hserialTime, htime, hact]
  · rw [hsome, hserialProbe, hsame, hact]
    exact hprobe

theorem midway_request {b : Bench M} (h : b.probe = none) (arrivals : Arrivals) :
    (b.midway arrivals).2 = none := by
  obtain ⟨probe, relay, refused, hact, hprobe, -⟩ := actAll_eq b arrivals.actions
  obtain ⟨-, -, hsame⟩ := releaseReset_settle_eq (b.actAll arrivals.actions)
  refine exchange_request ?_
  rw [hsame, hact]
  simpa [h] using hprobe

theorem tickProbe_request_ne (b : Bench M) : b.tickProbe.2 ≠ some .modelFinished := by
  unfold tickProbe
  split
  · split
    · rename_i p _ _
      cases hstatus : (p.tick b.time.now b.fixture).2.2 <;> simp [hstatus, Cause.ofStatus?]
    · simp
  · simp

/-- Nothing but the model itself finishes the model. -/
theorem finished_of_cause {b : Bench M} {arrivals : Arrivals}
    (h : (b.midway arrivals).1.cause? arrivals.stop (b.midway arrivals).2 = some .modelFinished) :
    (b.midway arrivals).1.fixture.finished = true := by
  have hrequest : (b.midway arrivals).2 ≠ some .modelFinished := tickProbe_request_ne _
  cases hfinished : (b.midway arrivals).1.fixture.finished with
  | true => rfl
  | false =>
    simp only [cause?, hfinished, Bool.false_eq_true, if_false] at h
    split at h
    · cases h
    · split at h
      · cases h
      · exact absurd h hrequest

theorem turn_of_cause {b : Bench M} {arrivals : Arrivals} {cause : Cause}
    (h : (b.midway arrivals).1.cause? arrivals.stop (b.midway arrivals).2 = some cause) :
    b.turn arrivals =
      ({ (b.midway arrivals).1 with time := (b.midway arrivals).1.time.finish }, some cause) := by
  simp only [midway] at h
  simp only [turn, iterate, proceed, midway, h]

theorem turn_of_none {b : Bench M} {arrivals : Arrivals}
    (h : (b.midway arrivals).1.cause? arrivals.stop (b.midway arrivals).2 = none) :
    b.turn arrivals = ((b.midway arrivals).1.advance, none) := by
  simp only [midway] at h
  simp only [turn, iterate, proceed, midway, h]

/-- An iteration that is not the last one. -/
theorem turn_eq_none {b d : Bench M} {arrivals : Arrivals} (h : b.turn arrivals = (d, none)) :
    d = (b.midway arrivals).1.advance := by
  cases hcause : (b.midway arrivals).1.cause? arrivals.stop (b.midway arrivals).2 with
  | none =>
    rw [turn_of_none hcause, Prod.mk.injEq] at h
    exact h.1.symm
  | some cause =>
    rw [turn_of_cause hcause, Prod.mk.injEq] at h
    cases h.2

/-! ### Runs -/

/-- Nothing happens outside the bench. -/
def quiet : Schedule := fun _ => ⟨[], false⟩

/-- `c` is the bench right before iteration `n` of a run that starts with `b`. -/
inductive Reaches (schedule : Schedule) (b : Bench M) : Nat → Bench M → Prop where
  | start : Reaches schedule b 0 b
  | turn {n : Nat} {c d : Bench M} (h : Reaches schedule b n c)
      (hturn : c.turn (schedule n) = (d, none)) : Reaches schedule b (n + 1) d

/-- A run goes through the benches that it reaches, and ends with an iteration that has a cause. -/
theorem reaches_of_runFrom {schedule : Schedule} {b c d : Bench M} {n fuel last : Nat}
    {cause : Cause} (hc : Reaches schedule b n c)
    (h : runFrom schedule n c fuel = some (d, cause, last)) :
    ∃ e, Reaches schedule b last e ∧ e.turn (schedule last) = (d, some cause) := by
  induction fuel generalizing n c with
  | zero => simp [runFrom] at h
  | succ fuel ih =>
    unfold runFrom at h
    split at h
    · rename_i d' cause' hturn
      simp only [Option.some.injEq, Prod.mk.injEq] at h
      obtain ⟨rfl, rfl, rfl⟩ := h
      exact ⟨c, hc, hturn⟩
    · rename_i d' hturn
      exact ih (hc.turn hturn) h

omit [HardwareModel M] in
theorem shutdown_fixture (b : Bench M) : b.shutdown.fixture = b.fixture := by
  unfold shutdown
  split <;> rfl

/-- The report of a run is about the bench after its last iteration. -/
theorem reaches_of_run {schedule : Schedule} {b d : Bench M} {fuel last : Nat} {report : Report}
    (h : run schedule 0 b fuel = some (report, d, last + 1)) :
    ∃ c, Reaches schedule b last c ∧ (c.turn (schedule last)).2 = some report.cause ∧
      report.received = (c.turn (schedule last)).1.received ∧
      d.fixture = (c.turn (schedule last)).1.fixture := by
  rw [run, Option.map_eq_some_iff] at h
  obtain ⟨⟨e, cause, k⟩, hrun, heq⟩ := h
  simp only [conclude, Prod.mk.injEq, Nat.add_right_cancel_iff] at heq
  obtain ⟨rfl, rfl, rfl⟩ := heq
  obtain ⟨c, hc, hturn⟩ := reaches_of_runFrom .start hrun
  exact ⟨c, hc, by rw [hturn], by rw [hturn], by rw [hturn, shutdown_fixture]⟩

end PinBench.Bench
