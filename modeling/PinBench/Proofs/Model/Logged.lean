import PinBench.Proofs.Bench.Mapping
import PinBench.Proofs.Pins.Driving

/-! A model that keeps a log of what is done to it.  The log changes nothing that a bench can see,
so a bench runs with a logged model as it does with the model itself (`Logged.mimics`), and at the
end the log tells how often the model was evaluated and what was written to each of its signals. -/

namespace PinBench

/-- One thing that a bench does to its model. -/
inductive Call where
  | write (id : SignalId) (value : Word)
  | eval
  deriving DecidableEq, Repr

namespace Call

/-- What a call writes to a signal, if it does. -/
def written? (id : SignalId) : Call → Option Word
  | .write other value => if other = id then some value else none
  | .eval => none

end Call

structure Logged (M : Type) where
  model : M
  log : List Call

namespace Logged

variable {M : Type} [HardwareModel M]

instance : HardwareModel (Logged M) where
  signals m := HardwareModel.signals m.model
  read m := HardwareModel.read m.model
  write m id value := ⟨HardwareModel.write m.model id value, m.log ++ [.write id value]⟩
  eval m := ⟨HardwareModel.eval m.model, m.log ++ [.eval]⟩
  finished m := HardwareModel.finished m.model

theorem mimics : HardwareModel.Mimics (Logged.model : Logged M → M) where
  signals _ := rfl
  read _ _ := rfl
  write _ _ _ := rfl
  eval _ := rfl
  finished _ := rfl

/-- How often the model was evaluated. -/
def evals (m : Logged M) : Nat := m.log.count .eval

/-- What was written to a signal, in order. -/
def writes (m : Logged M) (id : SignalId) : List Word := m.log.filterMap (Call.written? id)

theorem evals_write (m : Logged M) (id : SignalId) (value : Word) :
    (HardwareModel.write m id value).evals = m.evals := by
  show (m.log ++ [Call.write id value]).count .eval = _
  simp [evals]

theorem evals_eval (m : Logged M) : (HardwareModel.eval m).evals = m.evals + 1 := by
  show (m.log ++ [Call.eval]).count .eval = _
  simp [evals]

theorem writes_write_self (m : Logged M) (id : SignalId) (value : Word) :
    (HardwareModel.write m id value).writes id = m.writes id ++ [value] := by
  show (m.log ++ [Call.write id value]).filterMap (Call.written? id) = _
  simp [writes, Call.written?]

theorem writes_write_of_ne (m : Logged M) {id other : SignalId} (value : Word) (h : other ≠ id) :
    (HardwareModel.write m other value).writes id = m.writes id := by
  show (m.log ++ [Call.write other value]).filterMap (Call.written? id) = _
  simp [writes, Call.written?, h]

theorem writes_eval (m : Logged M) (id : SignalId) :
    (HardwareModel.eval m).writes id = m.writes id := by
  show (m.log ++ [Call.eval]).filterMap (Call.written? id) = _
  simp [writes, Call.written?]

end Logged

/-- The fixture with a log for its model, which is still empty. -/
def Fixture.logged {M : Type} (f : Fixture M) : Fixture (Logged M) := f.map fun m => ⟨m, []⟩

/-- The bench with a log for its model, which is still empty. -/
def Bench.logged {M : Type} (b : Bench M) : Bench (Logged M) := b.map fun m => ⟨m, []⟩

theorem Bench.logged_model {M : Type} (b : Bench M) : b.logged.map Logged.model = b := rfl

end PinBench
