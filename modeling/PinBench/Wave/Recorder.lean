import PinBench.Text.Utf8
import PinBench.Wave.Layout

/-! Recording a model as a value change dump.  The recorder declares the signals of a model, and at
each sample writes the time and every signal whose value is not that of the sample before.  What it
writes goes to a file that may have a size limit; the write that passes the limit leaves as much as
fits and ends the recording. -/

namespace PinBench.Wave

/-- A recorded signal: its number in the dump and the value that was written last. -/
structure Traced where
  signal : SignalId
  id : Nat
  width : Nat
  last : Option Word
  deriving DecidableEq, Repr

structure Recorder where
  /-- The recorded signals, in the order of the signal table. -/
  traced : List Traced
  /-- All that has been written, also what the limit cut off. -/
  text : String
  /-- The most bytes that the file holds, if there is a limit. -/
  limit : Option Nat
  isOpen : Bool
  deriving DecidableEq, Repr

/-- Whether a text stays within a limit. -/
def fits (limit : Option Nat) (text : String) : Bool :=
  match limit with
  | some limit => decide (text.utf8ByteSize ≤ limit)
  | none => true

/-- The bytes of a text that a file holds. -/
def held (limit : Option Nat) (text : String) : List UInt8 :=
  match limit with
  | some limit => (Utf8.encode text.toList).take limit
  | none => Utf8.encode text.toList

/-- The recorded signals of some declarations, in the order of the signal table. -/
def tracedOf (declarations : List Declaration) : List Traced :=
  ((declared declarations).zipIdx.map fun (e, id) => ⟨e.signal, id, e.width, none⟩).mergeSort
    fun a b => decide (a.signal ≤ b.signal)

namespace Recorder

/-- The recording of a signal table, with its header written. -/
def start (limit : Option Nat) (depth : Nat) (table : List Signal) : Recorder :=
  let declarations := layout depth table
  let text := render (header declarations)
  { traced := tracedOf declarations, text, limit, isOpen := fits limit text }

def bytes (r : Recorder) : List UInt8 := held r.limit r.text

/-- What a sample changes: the changes of the signals whose values are new, and the signals with
their new values. -/
def changes (read : SignalId → Word) : List Traced → List Command × List Traced
  | [] => ([], [])
  | t :: rest =>
    let value := read t.signal
    let (commands, rest) := changes read rest
    if t.last = some value then (commands, t :: rest)
    else (.change t.width t.id value :: commands, { t with last := some value } :: rest)

/-- A sample of the signals at time `now`.  Once the recording has ended nothing more is
written. -/
def sample (r : Recorder) (now : Nat) (read : SignalId → Word) : Recorder :=
  if r.isOpen then
    let (commands, traced) := changes read r.traced
    let text := r.text ++ render (.time now :: commands)
    { r with traced, text, isOpen := fits r.limit text }
  else r

def close (r : Recorder) : Recorder := { r with isOpen := false }

end Recorder

end PinBench.Wave
