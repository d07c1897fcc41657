import PinBench.Pins.HardwareModel

/-! A model under observation.  The observer counts evaluations, writes given words to given signals
right before given evaluations, and after each evaluation records the words that changed on the
signals it watches. -/

namespace PinBench.Model

structure Observed (M : Type) where
  model : M
  /-- The writes still to come: the number of the evaluation, the signal and the word. -/
  writes : List (Nat × SignalId × Word)
  /-- The watched signals, each with the word that it had last. -/
  watched : List (SignalId × Option Word)
  evals : Nat
  /-- The changes seen so far: the number of the evaluation, the signal and the word. -/
  changes : Array (Nat × SignalId × Word)

namespace Observed

variable {M : Type} [HardwareModel M]

/-- An observer who has seen nothing yet. -/
def start (model : M) (writes : List (Nat × SignalId × Word)) (watched : List SignalId) :
    Observed M :=
  { model, writes, watched := watched.map (·, none), evals := 0, changes := #[] }

/-- The writes due right before the next evaluation take place. -/
def intervene (o : Observed M) : Observed M :=
  { o with
    model := (o.writes.filter (·.1 == o.evals)).foldl
      (fun m w => HardwareModel.write m w.2.1 w.2.2) o.model
    writes := o.writes.filter (·.1 != o.evals) }

/-- Records what changed with the evaluation that has just taken place. -/
def look (o : Observed M) : Observed M :=
  let now := o.watched.map fun (id, last) => (id, last, HardwareModel.read o.model id)
  let changed := now.filter fun (_, last, value) => last != some value
  { o with
    watched := now.map fun (id, _, value) => (id, some value)
    changes := o.changes ++ changed.map fun (id, _, value) => (o.evals, id, value)
    evals := o.evals + 1 }

def eval (o : Observed M) : Observed M :=
  let o := o.intervene
  { o with model := HardwareModel.eval o.model }.look

instance : HardwareModel (Observed M) where
  signals o := HardwareModel.signals o.model
  read o id := HardwareModel.read o.model id
  write o id value := { o with model := HardwareModel.write o.model id value }
  eval := eval
  finished o := HardwareModel.finished o.model

end Observed

end PinBench.Model
