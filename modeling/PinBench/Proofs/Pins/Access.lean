import Mathlib.Algebra.Group.Nat.Defs
import PinBench.Model.WireTable
import PinBench.Proofs.Model.Logged
import PinBench.Proofs.Pins.Binding
import PinBench.Proofs.Pins.Keeping

/-! What calls on the pins can change.  A run of writes, of whole roles and of parts of them, drives
roles alone, so what holds along `DrivesOnly` holds along the run.  On a bound fixture no write
reaches a signal that the model drives or that serves no role, and what is written to a signal fits
in its width (`Guarded`). -/

namespace PinBench

namespace Word

theorem getLsbD_and_lowMask (w : Word) (width j : Nat) :
    (w &&& lowMask width).getLsbD j = (decide (j < width) && w.getLsbD j) := by
  rw [BitVec.getLsbD_and, getLsbD_lowMask]
  by_cases hj : j < 64
  · simp [hj, Bool.and_comm]
  · simp [BitVec.getLsbD_of_ge w j (Nat.le_of_not_lt hj)]

theorem toNat_and_lowMask (w : Word) (width : Nat) :
    (w &&& lowMask width).toNat = w.toNat % 2 ^ width := by
  refine Nat.eq_of_testBit_eq fun j => ?_
  rw [BitVec.testBit_toNat, getLsbD_and_lowMask, Nat.testBit_mod_two_pow, BitVec.testBit_toNat]

/-- A word cut to a width fits in it. -/
theorem toNat_and_lowMask_lt (w : Word) (width : Nat) :
    (w &&& lowMask width).toNat < 2 ^ width := by
  rw [toNat_and_lowMask]
  exact Nat.mod_lt _ (Nat.two_pow_pos width)

end Word

/-- A call that drives a role, or a part of it. -/
inductive Access where
  | write (role : Role) (value : Word)
  | writeField (role : Role) (lsb width : Nat) (value : Word)
  deriving DecidableEq, Repr

def Access.role : Access → Role
  | .write role _ | .writeField role _ _ _ => role

instance Logged.storesWrites {M : Type} [HardwareModel M] [StoresWrites M] :
    StoresWrites (Logged M) where
  read_write_self m id value h := StoresWrites.read_write_self m.model id value h
  read_write_of_ne m id other value h := StoresWrites.read_write_of_ne m.model id other value h
  signals_write m id value := StoresWrites.signals_write m.model id value

namespace Fixture

variable {M : Type} [HardwareModel M] {a : Assignment} {f g : Fixture M} {id : SignalId}
  {signal : Signal}

def access (f : Fixture M) : Access → Fixture M
  | .write role value => f.write role value
  | .writeField role lsb width value => f.writeField role lsb width value

/-- The calls one after another. -/
def accesses (f : Fixture M) (calls : List Access) : Fixture M := calls.foldl access f

theorem access_drivesOnly (f : Fixture M) (call : Access) :
    DrivesOnly (· = call.role) f (f.access call) := by
  cases call with
  | write role value => exact .write role value .refl rfl
  | writeField role lsb width value => exact .writeField .refl role lsb width value rfl

theorem accesses_drivesOnly (f : Fixture M) (calls : List Access) :
    DrivesOnly (fun _ => True) f (f.accesses calls) := by
  induction calls generalizing f with
  | nil => exact .refl
  | cons call calls ih =>
    exact ((access_drivesOnly f call).mono fun _ _ => trivial).trans (ih (f.access call))

theorem accesses_map {N : Type} [HardwareModel N] {φ : M → N} (hφ : HardwareModel.Mimics φ)
    (f : Fixture M) (calls : List Access) :
    (f.map φ).accesses calls = (f.accesses calls).map φ := by
  induction calls generalizing f with
  | nil => rfl
  | cons call calls ih =>
    have hcall : (f.map φ).access call = (f.access call).map φ := by
      cases call with
      | write role value => exact write_map hφ f role value
      | writeField role lsb width value => exact writeField_map hφ f role lsb width value
    exact (congrArg (accesses · calls) hcall).trans (ih (f.access call))

/-- Only a signal that the bench drives is reached, and by a role that it serves. -/
theorem BoundBy.onRow_of_reaches (h : f.BoundBy a) {role : Role} (hreaches : f.Reaches role id)
    (hrow : (HardwareModel.signals f.model)[id]? = some signal) :
    f.OnRow role id signal ∧ signal.direction = .hostDriven := by
  obtain ⟨hdir, b, hb, rfl⟩ := hreaches
  obtain ⟨signal', hon⟩ := h.onRow hb
  obtain rfl : signal = signal' := Option.some.inj (hrow.symm.trans hon.row)
  exact ⟨hon, hon.direction.trans hdir⟩

namespace DrivesOnly

variable {roles : Role → Prop}

theorem word_of_not_reaches [StoresWrites M] (hfg : DrivesOnly roles f g)
    (h : ∀ role, roles role → ¬f.Reaches role id) : g.word id = f.word id :=
  hfg.view_of_not_reaches (HardwareModel.read · id) h fun m other value hne =>
    StoresWrites.read_write_of_ne m other id value hne.symm

/-! What the log of a model tells. -/

variable {k l : Fixture (Logged M)}

theorem writes_of_not_reaches (hkl : DrivesOnly roles k l)
    (h : ∀ role, roles role → ¬k.Reaches role id) : l.model.writes id = k.model.writes id :=
  hkl.view_of_not_reaches (·.writes id) h fun m _ value hne => m.writes_write_of_ne value hne

/-- What holds of each word that a role on the signal is cut to holds of all that is written. -/
theorem forall_writes {P : Word → Prop} (hkl : DrivesOnly roles k l)
    (hk : ∀ v ∈ k.model.writes id, P v)
    (hcut : ∀ role b value, k.Reaches role id → k.binding? role = some b → P (value &&& b.mask)) :
    ∀ v ∈ l.model.writes id, P v := by
  induction hkl with
  | refl => exact hk
  | @write l role value hkl _ ih =>
    rcases write_cases l role value with hsame | ⟨b, hreaches, hb, hmodel⟩
    · rw [hsame]
      exact ih
    · rw [hmodel]
      by_cases hid : b.signal = id
      · rw [hid, Logged.writes_write_self, List.forall_mem_append, List.forall_mem_singleton]
        refine ⟨ih, hcut role b value ?_ (by rw [← hkl.binding?, hb])⟩
        rw [← hid]
        exact hkl.reaches_iff.mp hreaches
      · rw [Logged.writes_write_of_ne _ _ hid]
        exact ih

/-- The word of a signal is the last one written to it, or else what it was before. -/
theorem word_eq_getLastD [StoresWrites M] (hkl : DrivesOnly roles k l)
    (hid : id < (HardwareModel.signals k.model).length) (hk : k.model.writes id = []) :
    l.word id = (l.model.writes id).getLastD (k.word id) := by
  induction hkl with
  | refl => rw [hk, List.getLastD_nil]
  | @write l role value hkl _ ih =>
    rcases write_cases l role value with hsame | ⟨b, -, -, hmodel⟩
    · rw [hsame]
      exact ih
    · rw [word, hmodel]
      by_cases hb : b.signal = id
      · subst hb
        rw [Logged.writes_write_self, List.getLastD_concat]
        exact StoresWrites.read_write_self _ _ _ (by rw [hkl.signals]; exact hid)
      · rw [Logged.writes_write_of_ne _ _ hb, ← ih]
        exact StoresWrites.read_write_of_ne _ _ _ _ (Ne.symm hb)

end DrivesOnly

/-- A run of calls leaves a signal alone: its word stays and nothing is written to it. -/
def Spares (f : Fixture M) (calls : List Access) (id : SignalId) : Prop :=
  (f.accesses calls).word id = f.word id ∧ (f.logged.accesses calls).model.writes id = []

/-- What a run of calls changes of a model, as its words show and as a log of the model tells. -/
structure Guarded (f : Fixture M) (calls : List Access) : Prop where
  /-- The log tells of the same run. -/
  logged : (f.logged.accesses calls).map Logged.model = f.accesses calls
  /-- The word of a signal is the last one written to it, or else what it was before. -/
  stored : ∀ id signal, (HardwareModel.signals f.model)[id]? = some signal →
    (f.accesses calls).word id = ((f.logged.accesses calls).model.writes id).getLastD (f.word id)
  sampled : ∀ id signal, (HardwareModel.signals f.model)[id]? = some signal →
    signal.direction = .hostSampled → f.Spares calls id
  unreached : ∀ id, (∀ role, ¬f.Reaches role id) → f.Spares calls id
  fits : ∀ id signal, (HardwareModel.signals f.model)[id]? = some signal →
    ∀ v ∈ (f.logged.accesses calls).model.writes id, v.toNat < 2 ^ signal.width

theorem BoundBy.guarded [StoresWrites M] (h : f.BoundBy a) (calls : List Access) :
    f.Guarded calls := by
  have hlogged : (f.logged.accesses calls).map Logged.model = f.accesses calls :=
    (accesses_map Logged.mimics f.logged calls).symm
  -- a log changes no word, so the words of the two runs are the same
  have hword (id : SignalId) : (f.accesses calls).word id = (f.logged.accesses calls).word id := by
    rw [← hlogged]
    rfl
  have hdrives : DrivesOnly (fun _ => True) f.logged (f.logged.accesses calls) :=
    accesses_drivesOnly f.logged calls
  have hspares (id : SignalId) (hid : ∀ role, ¬f.Reaches role id) : f.Spares calls id :=
    ⟨(accesses_drivesOnly f calls).word_of_not_reaches fun role _ => hid role,
      hdrives.writes_of_not_reaches fun role _ => hid role⟩
  constructor
  case logged => exact hlogged
  case stored =>
    intro id signal hrow
    rw [hword]
    exact hdrives.word_eq_getLastD (List.getElem?_eq_some_iff.mp hrow).1 rfl
  case sampled =>
    intro id signal hrow hdir
    refine hspares id fun role hreaches => ?_
    rw [(h.onRow_of_reaches hreaches hrow).2] at hdir
    cases hdir
  case unreached => exact hspares
  case fits =>
    intro id signal hrow
    have hempty : f.logged.model.writes id = [] := rfl
    refine hdrives.forall_writes (by simp [hempty]) fun role b value hreaches hb => ?_
    have hon := (h.onRow_of_reaches hreaches hrow).1
    obtain rfl : b = ⟨id, signal.mask⟩ := Option.some.inj (hb.symm.trans hon.binding)
    exact Word.toNat_and_lowMask_lt value signal.width

/-- Binding fails if and only if some role has a name that stands for a row of the wrong direction,
and the first such role is the one in error.  Otherwise a role is served if its name occurs in the
table, and by the first row with that name.  If the model stores what is written to it, then no run
of calls on the bound fixture changes a signal that the model drives, or one that serves no role
that the bench drives, and whatever the calls write to a signal fits in its width. -/
theorem bind_guards (model : M) (a : Assignment) :
    ((∃ e, bind model a = .error e) ↔
      ∃ role name, a.Misdirects (HardwareModel.signals model) role name) ∧
    (∀ e, bind model a = .error e ↔
      ∃ role name, a.Misdirects (HardwareModel.signals model) role name ∧
        (∀ earlier, earlier.index < role.index →
          ∀ n, ¬a.Misdirects (HardwareModel.signals model) earlier n) ∧
        e = .directionMismatch role name) ∧
    ∀ f, bind model a = .ok f →
      f.model = model ∧
      (∀ role, f.bound role = true ↔
        ∃ name, a.name? role = some name ∧
          ∃ signal ∈ HardwareModel.signals model, signal.name = name) ∧
      (∀ role b, f.binding? role = some b ↔
        ∃ signal, a.Names (HardwareModel.signals model) role b.signal signal ∧
          b.mask = signal.mask) ∧
      ∀ [StoresWrites M] (calls : List Access), f.Guarded calls := by
  refine ⟨exists_bind_eq_error_iff, fun e => bind_eq_error_iff, fun f hbind => ?_⟩
  exact ⟨model_of_bind hbind, fun role => bound_iff hbind, fun role b => binding?_eq_some_iff hbind,
    (boundBy_of_bind hbind).guarded⟩

/-- A table in which two names occur twice, the second time with the other direction. -/
def twice : List Signal := [.output "led" 4, .input "bus" 8, .input "led" 4, .output "bus" 8]

/-- Two roles on one name, one role on a name that no table of interest has. -/
def crossed : Assignment where
  name?
    | .gpioIn | .uartRx => some "bus"
    | .gpioOut => some "led"
    | .jtagTms => some "absent"
    | _ => none

/-- The first row counts: the bench's two roles share the input, the output is the model's, and a
field past the end of the bus is cut off. -/
theorem bind_guards_twice :
    ∃ f, bind (Model.WireTable.plain twice) crossed = .ok f ∧
      f.binding? .gpioIn = some ⟨1, 255⟩ ∧ f.binding? .uartRx = some ⟨1, 255⟩ ∧
      f.binding? .jtagTms = none ∧
      (∀ calls, f.Guarded calls) ∧
      (f.accesses [.write .gpioIn 3, .write .gpioOut 1, .writeField .uartRx 6 8 255]).word 1 = 195 ∧
      bind (Model.WireTable.plain twice) (crossed.assign .uartRx "led") =
        .error (.directionMismatch .uartRx "led") := by
  have hbound := (bind_guards (Model.WireTable.plain twice) crossed).2.2
  exact ⟨_, rfl, rfl, rfl, rfl, (hbound _ rfl).2.2.2, rfl, rfl⟩

end Fixture

end PinBench
