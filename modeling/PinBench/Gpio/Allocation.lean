/-! Who owns which bits of the GPIO input word.  The word has 32 bits, shared by the counter that
stimulates the inputs and the observer who sets them from afar.  An allocation gives each of them at
most one run of bits, inside the word and apart from the other's. -/

namespace PinBench.Gpio

def inputWidth : Nat := 32

/-- The largest place that 32 bits can name.  The end of a range goes no further. -/
def lastPlace : Nat := UInt32.size - 1

/-- Who may own bits of the input word. -/
inductive Owner where
  | stimulus
  | telemetry
  deriving DecidableEq, Repr

def Owner.label : Owner → String
  | .stimulus => "stimulus"
  | .telemetry => "telemetry"

/-- A run of bits and its owner. -/
structure InputRange where
  owner : Owner
  lsb : Nat
  width : Nat
  deriving DecidableEq, Repr

namespace InputRange

/-- One past the highest bit, or the last place if that comes first. -/
def stop (r : InputRange) : Nat := min (r.lsb + r.width) lastPlace

/-- Whether two runs have a bit in common.  An empty run has none. -/
def overlaps (r s : InputRange) : Bool :=
  r.width != 0 && s.width != 0 && decide (r.lsb < s.stop) && decide (s.lsb < r.stop)

end InputRange

/-- Why a list of ranges is no allocation. -/
inductive AllocationError where
  | overlap (first second : Owner)
  | outOfRange (range : InputRange)
  | duplicateOwner (owner : Owner)
  deriving DecidableEq, Repr

def AllocationError.message : AllocationError → String
  | .overlap first second => first.label ++ " and " ++ second.label ++ " both claim GPIO input bits"
  | .outOfRange r =>
    r.owner.label ++ " range " ++ toString r.lsb ++ "+" ++ toString r.width ++
      " exceeds the 32-bit input word"
  | .duplicateOwner owner => owner.label ++ " claims more than one GPIO input range"

/-- What a range has against an earlier one: the same owner counts before common bits. -/
def conflict? (earlier range : InputRange) : Option AllocationError :=
  if earlier.owner = range.owner then some (.duplicateOwner range.owner)
  else if earlier.overlaps range then some (.overlap earlier.owner range.owner)
  else none

/-- The first thing wrong with a range that comes after `earlier` ones. -/
def fault? (earlier : List InputRange) (range : InputRange) : Option AllocationError :=
  if inputWidth < range.stop then some (.outOfRange range)
  else earlier.findSome? (conflict? · range)

/-- The first thing wrong with `ranges`, which come after `earlier` ones. -/
def firstFault? (earlier : List InputRange) : List InputRange → Option AllocationError
  | [] => none
  | range :: rest =>
    match fault? earlier range with
    | some e => some e
    | none => firstFault? (earlier ++ [range]) rest

/-- Ranges that nothing is wrong with. -/
structure Allocation where
  ranges : List InputRange
  sound : firstFault? [] ranges = none

namespace Allocation

/-- The lower half for the counter and the upper half for the observer. -/
def standard : Allocation := ⟨[⟨.stimulus, 0, 16⟩, ⟨.telemetry, 16, 16⟩], by decide⟩

/-- The allocation that some ranges make, or the first thing wrong with them. -/
def ofRanges (ranges : List InputRange) : Except AllocationError Allocation :=
  match h : firstFault? [] ranges with
  | none => .ok ⟨ranges, h⟩
  | some e => .error e

def range? (a : Allocation) (owner : Owner) : Option InputRange :=
  a.ranges.find? (·.owner == owner)

end Allocation

end PinBench.Gpio
