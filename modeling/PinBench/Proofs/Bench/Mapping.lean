import PinBench.Bench.Words

/-! A bench with another model in it.  A map between two models that keeps what can be seen of them
through their pins is carried to fixtures and benches, and a run of the bench with the one model is
the run with the other (`runIn_map`): nothing that a bench does depends on more of its model than
the pins show. -/

namespace PinBench

variable {M N : Type} [HardwareModel M] [HardwareModel N]

/-- The image of a model under `φ` shows the same as the model, whatever is done to the two. -/
structure HardwareModel.Mimics (φ : M → N) : Prop where
  signals (m : M) : HardwareModel.signals (φ m) = HardwareModel.signals m
  read (m : M) (id : SignalId) : HardwareModel.read (φ m) id = HardwareModel.read m id
  write (m : M) (id : SignalId) (value : Word) :
    φ (HardwareModel.write m id value) = HardwareModel.write (φ m) id value
  eval (m : M) : φ (HardwareModel.eval m) = HardwareModel.eval (φ m)
  finished (m : M) : HardwareModel.finished (φ m) = HardwareModel.finished m

variable {φ : M → N}

namespace Fixture

def map (φ : M → N) (f : Fixture M) : Fixture N := ⟨φ f.model, f.bindings⟩

variable (hφ : HardwareModel.Mimics φ) (f : Fixture M)
include hφ

theorem read_map (role : Role) : (f.map φ).read role = f.read role := by
  have hbinding : (f.map φ).binding? role = f.binding? role := rfl
  unfold read
  rw [hbinding]
  cases f.binding? role with
  | none => rfl
  | some b =>
    simp only [map]
    rw [hφ.read]

theorem write_map (role : Role) (value : Word) :
    (f.map φ).write role value = (f.write role value).map φ := by
  have hbinding : (f.map φ).binding? role = f.binding? role := rfl
  unfold write
  rw [hbinding]
  cases role.direction with
  | hostSampled => rfl
  | hostDriven =>
    cases f.binding? role with
    | none => rfl
    | some b =>
      simp only [map]
      rw [hφ.write]

theorem drive_map (role : Role) (level : Bool) :
    (f.map φ).drive role level = (f.drive role level).map φ :=
  write_map hφ f role _

theorem writeField_map (role : Role) (lsb width : Nat) (value : Word) :
    (f.map φ).writeField role lsb width value = (f.writeField role lsb width value).map φ := by
  unfold writeField
  split
  · rfl
  · rw [read_map hφ, write_map hφ]

theorem eval_map : (f.map φ).eval = f.eval.map φ := by
  simp only [eval, map, hφ.eval]

theorem finished_map : (f.map φ).finished = f.finished := hφ.finished f.model

/-! ### The parts of a bench -/

theorem link_tickIn_map (o : Overflow) (p : Serial.Link) (now : Time) :
    p.tickIn o now (f.map φ) = (p.tickIn o now f).map fun r => (r.1, r.2.map φ) := by
  simp only [Serial.Link.tickIn, drive_map hφ, read_map hφ, Option.bind_eq_bind, Option.pure_def]
  cases p.transmitter.tickIn o now with
  | none => rfl
  | some transmitter =>
    simp only [Option.bind_some]
    cases p.receiver.tickIn o now ((f.drive .uartRx transmitter.1.level).read .uartTx).isHigh <;> rfl

theorem probe_tick_map (p : Jtag.Probe) (now : Time) :
    p.tick now (f.map φ) =
      ((p.tick now f).1, (p.tick now f).2.1.map φ, (p.tick now f).2.2) := by
  unfold Jtag.Probe.tick
  cases p.gate.cycle? now with
  | none => rfl
  | some cycle => simp only [read_map hφ, drive_map hφ]

theorem relay_tick_map {E : Type} [Telemetry.Endpoint E] (m : Telemetry.Relay E) (now : Time) :
    m.tick now (f.map φ) = ((m.tick now f).1, (m.tick now f).2.map φ) := by
  have hpoll : m.pollInputs now (f.map φ) =
      ((m.pollInputs now f).1, (m.pollInputs now f).2.map φ) := by
    unfold Telemetry.Relay.pollInputs
    split
    · rfl
    · cases hlevels : (Telemetry.Endpoint.poll m.endpoint).2 with
      | none => simp only [hlevels]
      | some levels => simp only [hlevels, Telemetry.Relay.applyInputs, writeField_map hφ]
  simp only [Telemetry.Relay.tick, hpoll, read_map hφ]

theorem counter_tick_map (c : Gpio.Counter) (now : Time) :
    c.tick now (f.map φ) = ((c.tick now f).1, (c.tick now f).2.map φ) := by
  unfold Gpio.Counter.tick
  split
  · simp only [writeField_map hφ]
  · rfl

theorem monitor_sample_map (m : Gpio.Monitor) : m.sample (f.map φ) = m.sample f := by
  simp only [Gpio.Monitor.sample, read_map hφ]

end Fixture

namespace Bench

def map (φ : M → N) (b : Bench M) : Bench N := { b with fixture := b.fixture.map φ }

omit [HardwareModel M] [HardwareModel N] in
theorem act_map (b : Bench M) (transport : Transport) (action : Net.ClientAction) :
    (b.map φ).act transport action = (b.act transport action).map (map φ) := by
  cases transport with
  | jtag =>
    cases hprobe : b.probe with
    | none => simp [act, listener?, map, hprobe, Except.map]
    | some p =>
      cases hact : p.server.listener.act action <;>
        simp [act, listener?, setListener, map, hprobe, hact, Except.map]
  | telemetry =>
    cases hrelay : b.relay with
    | none => simp [act, listener?, map, hrelay, Except.map]
    | some r =>
      cases hact : r.endpoint.listener.act action <;>
        simp [act, listener?, setListener, map, hrelay, hact, Except.map]

omit [HardwareModel M] [HardwareModel N] in
theorem actAll_map (b : Bench M) (actions : List (Transport × Net.ClientAction)) :
    (b.map φ).actAll actions = (b.actAll actions).map φ := by
  induction actions generalizing b with
  | nil => rfl
  | cons a actions ih =>
    simp only [actAll, List.foldl_cons, act_map]
    cases b.act a.1 a.2 with
    | ok c => exact ih c
    | error e => exact ih { b with refused := b.refused ++ [e] }

variable (hφ : HardwareModel.Mimics φ) (b : Bench M)
include hφ

theorem releaseReset_map : (b.map φ).releaseReset = b.releaseReset.map φ := by
  by_cases hrelease : b.released = false ∧ b.config.reset.releaseTime.toNat ≤ b.time.now
  · have hmap : (b.map φ).released = false ∧
        (b.map φ).config.reset.releaseTime.toNat ≤ (b.map φ).time.now := hrelease
    simp only [releaseReset, if_pos hrelease, if_pos hmap]
    simp only [map, Fixture.drive_map hφ]
  · have hmap : ¬((b.map φ).released = false ∧
        (b.map φ).config.reset.releaseTime.toNat ≤ (b.map φ).time.now) := hrelease
    simp only [releaseReset, if_neg hrelease, if_neg hmap]

theorem settle_map : (b.map φ).settle = b.settle.map φ := by
  have hread : HardwareModel.read (φ b.fixture.eval.model) =
      HardwareModel.read b.fixture.eval.model := funext fun id => hφ.read _ id
  simp only [settle, map, Fixture.eval_map hφ]
  rw [← hread]
  rfl

theorem tickProbe_map : (b.map φ).tickProbe = (b.tickProbe.1.map φ, b.tickProbe.2) := by
  cases hprobe : b.probe with
  | none => simp [tickProbe, map, hprobe]
  | some p =>
    cases hreleased : b.released with
    | false => simp [tickProbe, map, hprobe, hreleased]
    | true => simp [tickProbe, map, hprobe, hreleased, Fixture.probe_tick_map hφ]

theorem tickRelay_map : (b.map φ).tickRelay = b.tickRelay.map φ := by
  cases hrelay : b.relay with
  | none => simp [tickRelay, map, hrelay]
  | some m => simp [tickRelay, map, hrelay, Fixture.relay_tick_map hφ]

theorem tickOthers_map : (b.map φ).tickOthers = (b.tickOthers.1.map φ, b.tickOthers.2) := by
  simp only [tickOthers, tickProbe_map hφ, tickRelay_map hφ]
  simp only [map, Fixture.monitor_sample_map hφ]

theorem cause?_map (stop : Bool) (request : Option Cause) :
    (b.map φ).cause? stop request = b.cause? stop request := by
  have hfinished : (b.map φ).fixture.finished = b.fixture.finished :=
    Fixture.finished_map hφ b.fixture
  unfold cause?
  rw [hfinished]
  rfl

theorem advance_map : (b.map φ).advance = b.advance.map φ := by
  cases hcounter : b.counter with
  | none => simp [advance, map, hcounter, Fixture.drive_map hφ]
  | some c => simp [advance, map, hcounter, Fixture.drive_map hφ, Fixture.counter_tick_map hφ]

theorem proceed_map (stop : Bool) (request : Option Cause) :
    (b.map φ).proceed stop request =
      ((b.proceed stop request).1.map φ, (b.proceed stop request).2) := by
  unfold proceed
  rw [cause?_map hφ]
  cases b.cause? stop request with
  | none => simp only [advance_map hφ]
  | some cause => rfl

omit hφ [HardwareModel M] [HardwareModel N] in
theorem shutdown_map : (b.map φ).shutdown = b.shutdown.map φ := by
  cases hdown : b.down <;> simp [shutdown, map, hdown]

theorem tickSerialIn_map (o : Overflow) :
    (b.map φ).tickSerialIn o = (b.tickSerialIn o).map (map φ) := by
  cases hserial : b.serial with
  | none => simp [tickSerialIn, map, hserial]
  | some p => simp [tickSerialIn, map, hserial, Fixture.link_tickIn_map hφ, Function.comp_def]

theorem turnIn_map (o : Overflow) (arrivals : Arrivals) :
    (b.map φ).turnIn o arrivals = (b.turnIn o arrivals).map fun r => (r.1.map φ, r.2) := by
  simp only [turnIn, exchangeIn, actAll_map, releaseReset_map hφ, settle_map hφ,
    tickSerialIn_map hφ, Option.map_map]
  congr 1
  funext c
  simp only [Function.comp, tickOthers_map hφ, proceed_map hφ]

theorem runFromIn_map (o : Overflow) (schedule : Schedule) (n fuel : Nat) :
    runFromIn o schedule n (b.map φ) fuel =
      (runFromIn o schedule n b fuel).map fun result => result.map fun r => (r.1.map φ, r.2) := by
  induction fuel generalizing n b with
  | zero => rfl
  | succ fuel ih =>
    simp only [runFromIn, turnIn_map hφ]
    cases hturn : b.turnIn o (schedule n) with
    | none => rfl
    | some r =>
      obtain ⟨c, cause⟩ := r
      cases cause with
      | some cause => rfl
      | none => exact ih c (n + 1)

/-- The run of a bench with the image of its model in it. -/
theorem runIn_map (o : Overflow) (schedule : Schedule) (n fuel : Nat) :
    runIn o schedule n (b.map φ) fuel =
      (runIn o schedule n b fuel).map fun result => result.map fun r =>
        (r.1, r.2.1.map φ, r.2.2) := by
  simp only [runIn, runFromIn_map hφ, Option.map_map]
  congr 1
  funext result
  cases result with
  | error n => rfl
  | ok r =>
    simp only [Function.comp, Except.map, conclude, shutdown_map]
    rfl

end Bench

end PinBench
