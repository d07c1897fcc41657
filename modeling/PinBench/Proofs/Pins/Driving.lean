import PinBench.Gpio.Counter
import PinBench.Jtag.Probe
import PinBench.Serial.Link
import PinBench.Telemetry.Relay

/-! Which roles the parts of a bench drive.  `DrivesOnly roles f g` says that the fixture `g` comes
from `f` by writes to roles among `roles` alone, so whatever those writes leave alone is the same in
both: the bindings, and every view of the model that does not depend on the signals behind these
roles.  The serial link drives the line into the model, the probe three lines of the test access
port, and the relay and the counter the input word. -/

namespace PinBench.Fixture

variable {M : Type} [HardwareModel M] {roles : Role → Prop} {f g h : Fixture M}

/-- `g` comes from `f` by writes to roles among `roles`. -/
inductive DrivesOnly (roles : Role → Prop) (f : Fixture M) : Fixture M → Prop where
  | refl : DrivesOnly roles f f
  | write {g : Fixture M} (role : Role) (value : Word) (hg : DrivesOnly roles f g)
      (hrole : roles role) : DrivesOnly roles f (g.write role value)

namespace DrivesOnly

theorem trans (hfg : DrivesOnly roles f g) (hgh : DrivesOnly roles g h) : DrivesOnly roles f h := by
  induction hgh with
  | refl => exact hfg
  | write role value _ hrole ih => exact .write role value ih hrole

theorem mono {more : Role → Prop} (hfg : DrivesOnly roles f g)
    (hle : ∀ role, roles role → more role) :
    DrivesOnly more f g := by
  induction hfg with
  | refl => exact .refl
  | write role value _ hrole ih => exact .write role value ih (hle role hrole)

theorem drive (hfg : DrivesOnly roles f g) (role : Role) (level : Bool) (hrole : roles role) :
    DrivesOnly roles f (g.drive role level) :=
  .write role _ hfg hrole

theorem writeField (hfg : DrivesOnly roles f g) (role : Role) (lsb width : Nat) (value : Word)
    (hrole : roles role) : DrivesOnly roles f (g.writeField role lsb width value) := by
  unfold Fixture.writeField
  split
  · exact hfg
  · exact .write role _ hfg hrole

end DrivesOnly

theorem write_bindings (f : Fixture M) (role : Role) (value : Word) :
    (f.write role value).bindings = f.bindings := by
  unfold write
  split <;> rfl

theorem DrivesOnly.bindings (hfg : DrivesOnly roles f g) : g.bindings = f.bindings := by
  induction hfg with
  | refl => rfl
  | write role value _ _ ih => rw [write_bindings, ih]

theorem DrivesOnly.binding? (hfg : DrivesOnly roles f g) (role : Role) :
    g.binding? role = f.binding? role := by
  simp only [Fixture.binding?, hfg.bindings]

/-- A write to a role that the bench drives, on the signal behind it. -/
theorem write_model {role : Role} {b : Binding} (hdir : role.direction = .hostDriven)
    (hb : f.binding? role = some b) (value : Word) :
    (f.write role value).model = HardwareModel.write f.model b.signal (value &&& b.mask) := by
  simp [write, hdir, hb]

/-- A write to the role is a write to the signal `id`. -/
def Reaches (f : Fixture M) (role : Role) (id : SignalId) : Prop :=
  role.direction = .hostDriven ∧ ∃ b, f.binding? role = some b ∧ b.signal = id

/-- A write reaches one signal, or it does nothing. -/
theorem write_cases (f : Fixture M) (role : Role) (value : Word) :
    f.write role value = f ∨
      ∃ b, f.Reaches role b.signal ∧ f.binding? role = some b ∧
        (f.write role value).model = HardwareModel.write f.model b.signal (value &&& b.mask) := by
  cases hdir : role.direction with
  | hostSampled => exact .inl (by simp [write, hdir])
  | hostDriven =>
    cases hb : f.binding? role with
    | none => exact .inl (by simp [write, hdir, hb])
    | some b => exact .inr ⟨b, ⟨hdir, b, hb, rfl⟩, rfl, write_model hdir hb value⟩

theorem DrivesOnly.reaches_iff (hfg : DrivesOnly roles f g) {role : Role} {id : SignalId} :
    g.Reaches role id ↔ f.Reaches role id := by
  simp only [Reaches, hfg.binding?]

/-- A view of the model that no write to the signals behind `roles` changes. -/
theorem DrivesOnly.view {α : Type} {view : M → α} (hfg : DrivesOnly roles f g)
    (hview : ∀ role, roles role → role.direction = .hostDriven → ∀ b, f.binding? role = some b →
      ∀ m value, view (HardwareModel.write m b.signal value) = view m) :
    view g.model = view f.model := by
  induction hfg with
  | refl => rfl
  | @write g role value hg hrole ih =>
    rcases write_cases g role value with hsame | ⟨b, hreaches, hb, hmodel⟩
    · rw [hsame, ih]
    · rw [hmodel, hview role hrole hreaches.1 b (by rw [← hg.binding?, hb]), ih]

/-- A view of the model that only writes to the signal `id` can change, along writes that do not
reach it. -/
theorem DrivesOnly.view_of_not_reaches {α : Type} {id : SignalId} (hfg : DrivesOnly roles f g)
    (view : M → α) (h : ∀ role, roles role → ¬f.Reaches role id)
    (hview : ∀ m other value, other ≠ id → view (HardwareModel.write m other value) = view m) :
    view g.model = view f.model :=
  hfg.view fun role hrole hdir b hb m value =>
    hview m b.signal value fun hid => h role hrole ⟨hdir, b, hb, hid⟩

/-- No other role that the bench drives is on the signal `id` that serves `role`. -/
def Alone (f : Fixture M) (role : Role) (id : SignalId) : Prop :=
  ∀ other, other ≠ role → other.direction = .hostDriven → ∀ b, f.binding? other = some b →
    b.signal ≠ id

omit [HardwareModel M] in
theorem Alone.of_bindings {N : Type} {k : Fixture N} {role : Role} {id : SignalId}
    (h : f.Alone role id) (hk : k.bindings = f.bindings) : k.Alone role id := by
  intro other hne hdir b hb
  rw [binding?, hk] at hb
  exact h other hne hdir b hb

theorem DrivesOnly.alone {role : Role} {id : SignalId} (hfg : DrivesOnly roles f g)
    (h : f.Alone role id) : g.Alone role id :=
  h.of_bindings hfg.bindings

/-- A view of the model that only writes to the signal `id` can change. -/
theorem DrivesOnly.view_of_alone {α : Type} {role : Role} {id : SignalId}
    (hfg : DrivesOnly roles f g) (view : M → α) (halone : f.Alone role id) (hroles : ¬roles role)
    (hview : ∀ m other value, other ≠ id → view (HardwareModel.write m other value) = view m) :
    view g.model = view f.model := by
  refine hfg.view_of_not_reaches view (fun other hother hreaches => ?_) hview
  obtain ⟨hdir, b, hb, hid⟩ := hreaches
  have hne : other ≠ role := by
    rintro rfl
    exact hroles hother
  exact halone other hne hdir b hb hid

/-! ### The parts of a bench -/

theorem link_tick_drivesOnly (p : Serial.Link) (now : Time) (f : Fixture M) :
    DrivesOnly (· = .uartRx) f (p.tick now f).2 :=
  .drive .refl _ _ rfl

/-- The inputs of the test access port, but for the test reset. -/
def isProbeLine (role : Role) : Prop := role = .jtagTck ∨ role = .jtagTms ∨ role = .jtagTdi

theorem probe_attach_drivesOnly (f : Fixture M) : DrivesOnly isProbeLine f (Jtag.Probe.attach f) :=
  ((DrivesOnly.refl.drive .jtagTck _ (.inl rfl)).drive .jtagTms _ (.inr (.inl rfl))).drive
    .jtagTdi _ (.inr (.inr rfl))

theorem probe_tick_drivesOnly (p : Jtag.Probe) (now : Time) (f : Fixture M) :
    DrivesOnly isProbeLine f (p.tick now f).2.1 := by
  unfold Jtag.Probe.tick
  split
  · exact .refl
  · exact ((DrivesOnly.refl.drive .jtagTms _ (.inr (.inl rfl))).drive .jtagTdi _
      (.inr (.inr rfl))).drive .jtagTck _ (.inl rfl)

theorem relay_tick_drivesOnly {E : Type} [Telemetry.Endpoint E] (m : Telemetry.Relay E) (now : Time)
    (f : Fixture M) : DrivesOnly (· = .gpioIn) f (m.tick now f).2 := by
  simp only [Telemetry.Relay.tick, Telemetry.Relay.pollInputs]
  split
  · exact .refl
  · split
    · exact .writeField .refl _ _ _ _ rfl
    · exact .refl

theorem counter_tick_drivesOnly (c : Gpio.Counter) (now : Time) (f : Fixture M) :
    DrivesOnly (· = .gpioIn) f (c.tick now f).2 := by
  unfold Gpio.Counter.tick
  split
  · exact .writeField .refl _ _ _ _ rfl
  · exact .refl

end PinBench.Fixture
