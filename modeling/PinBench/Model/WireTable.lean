import PinBench.Pins.HardwareModel

/-! The plainest hardware model: a table of signals that keeps what is written to it.  Evaluating
it copies words along its wires, in order.  It may be made to finish after a number of
evaluations. -/

namespace PinBench.Model

/-- A table of signals with a word for each. -/
structure WireTable where
  signals : List Signal
  values : Array Word
  size_values : values.size = signals.length
  /-- The wires, each from one signal to another. -/
  wires : List (SignalId × SignalId)
  /-- The number of evaluations after which the model has finished, if it ever does. -/
  finishAt : Option Nat
  evals : Nat

namespace WireTable

/-- A table without wires, all words zero. -/
def plain (signals : List Signal) : WireTable :=
  { signals, values := Array.replicate signals.length 0, size_values := by simp, wires := [],
    finishAt := none, evals := 0 }

/-- The word on a signal, zero past the end of the table. -/
def read (m : WireTable) (id : SignalId) : Word := m.values.getD id 0

/-- The table with another word on one signal.  A write past its end is lost. -/
def write (m : WireTable) (id : SignalId) (value : Word) : WireTable :=
  { m with
    values := m.values.setIfInBounds id value
    size_values := by rw [Array.size_setIfInBounds, m.size_values] }

/-- The table with the first words replaced by `values`, as far as there are signals. -/
def load (m : WireTable) (values : List Word) : WireTable :=
  values.zipIdx.foldl (fun m v => m.write v.2 v.1) m

/-- Copies one word along each wire, then counts the evaluation. -/
def eval (m : WireTable) : WireTable :=
  let m := m.wires.foldl (fun m wire => m.write wire.2 (m.read wire.1)) m
  { m with evals := m.evals + 1 }

def finished (m : WireTable) : Bool :=
  match m.finishAt with
  | some n => decide (n ≤ m.evals)
  | none => false

instance : HardwareModel WireTable where
  signals := signals
  read := read
  write := write
  eval := eval
  finished := finished

instance : StoresWrites WireTable where
  read_write_self m id value h := by
    have hs : id < m.values.size := by rw [m.size_values]; exact h
    simp [HardwareModel.read, HardwareModel.write, read, write, Array.getD, hs]
  read_write_of_ne m id other value h := by
    simp only [HardwareModel.read, HardwareModel.write, read, write, Array.getD_eq_getD_getElem?]
    rw [Array.getElem?_setIfInBounds_ne (Ne.symm h)]
  signals_write _ _ _ := rfl

end WireTable

end PinBench.Model
