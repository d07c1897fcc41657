import PinBench.Word
import PinBench.Pins.Role

/-! Hardware models.  A model publishes a table of named signals, keeps a word for each of them, and
settles its outputs when it is evaluated.  `StoresWrites` states what the bench relies on when it
changes a part of an input word: reading a signal gives back what was written to it. -/

namespace PinBench

/-- One row of a model's signal table.  The parts of a hierarchical name are separated by dots. -/
structure Signal where
  name : String
  width : Nat
  direction : Direction
  deriving DecidableEq, Repr

namespace Signal

/-- A signal that the bench drives. -/
def input (name : String) (width : Nat) : Signal := ⟨name, width, .hostDriven⟩

/-- A signal that the model drives. -/
def output (name : String) (width : Nat) : Signal := ⟨name, width, .hostSampled⟩

/-- The bits of a word that the signal uses. -/
def mask (s : Signal) : Word := Word.lowMask s.width

end Signal

/-- A row of a signal table by its place. -/
abbrev SignalId := Nat

/-- A model seen through its pins. -/
class HardwareModel (M : Type) where
  signals : M → List Signal
  read : M → SignalId → Word
  /-- Drives a signal.  Outputs follow at the next `eval`. -/
  write : M → SignalId → Word → M
  /-- Settles the model against its inputs. -/
  eval : M → M
  finished : M → Bool

/-- A write of a signal of the table is what a read of it gives back, and it changes no other
signal, nor the table. -/
class StoresWrites (M : Type) [HardwareModel M] : Prop where
  read_write_self (m : M) (id : SignalId) (value : Word)
    (h : id < (HardwareModel.signals m).length) :
    HardwareModel.read (HardwareModel.write m id value) id = value
  read_write_of_ne (m : M) (id other : SignalId) (value : Word) (h : other ≠ id) :
    HardwareModel.read (HardwareModel.write m id value) other = HardwareModel.read m other
  signals_write (m : M) (id : SignalId) (value : Word) :
    HardwareModel.signals (HardwareModel.write m id value) = HardwareModel.signals m

end PinBench
