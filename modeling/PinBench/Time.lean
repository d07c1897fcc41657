/-! Virtual time and the clock.  Time counts nanoseconds from zero and stops at `Time.latest`.  A
`Timebase` holds the time, the level of the clock line and whether the run has ended.

A time is kept in a machine word.  `Overflow.word?` says what a machine makes of a sum of times that
does not fit into one. -/

namespace PinBench

/-- A virtual time in nanoseconds. -/
abbrev Time := Nat

namespace Time

/-- The last instant: time stays there once it is reached. -/
def latest : Time := UInt64.size - 1

/-- The time `duration` after `t`, or the last instant if that comes first. -/
def after (t duration : Time) : Time := min (t + duration) latest

theorem after_eq_add {t duration : Time} (h : t + duration ≤ latest) :
    t.after duration = t + duration := Nat.min_eq_left h

/-- A time that has stopped at the last instant stays there. -/
theorem after_min (t duration : Nat) :
    Time.after (min t latest) duration = min (t + duration) latest := by
  show min (min t latest + duration : Nat) latest = _
  omega

/-- Before the last instant a deadline is met when its duration has passed. -/
theorem after_le_iff {t duration now : Nat} (h : now < latest) :
    Time.after t duration ≤ now ↔ t + duration ≤ now := by
  show min (t + duration : Nat) latest ≤ now ↔ _
  omega

end Time

/-- What a machine does with a sum that does not fit into a word. -/
inductive Overflow where
  /-- The program stops there. -/
  | stops
  | wraps
  deriving DecidableEq, Repr

/-- The word that a sum of times is kept in.  `none` if the program stops. -/
def Overflow.word? (o : Overflow) (sum : Nat) : Option Time :=
  if sum ≤ Time.latest then some sum
  else
    match o with
    | .stops => none
    | .wraps => some (sum % UInt64.size)

inductive ClockEdge where
  | rising
  | falling
  deriving DecidableEq, Repr

/-- The edge that brought the clock to a level. -/
def ClockEdge.to : Bool → ClockEdge
  | true => .rising
  | false => .falling

/-- The time of a run, the level of its clock line, and whether a trigger has ended it. -/
structure Timebase where
  now : Time
  clock : Bool
  ended : Bool
  deriving DecidableEq, Repr

namespace Timebase

def start (level : Bool) : Timebase := ⟨0, level, false⟩

def advance (t : Timebase) (step : Time) : Timebase := { t with now := t.now.after step }

def toggle (t : Timebase) : Timebase := { t with clock := !t.clock }

def finish (t : Timebase) : Timebase := { t with ended := true }

/-- Whether the time limit is reached.  A limit of zero is no limit. -/
def timedOut (t : Timebase) (limit : Time) : Bool := limit != 0 && decide (limit ≤ t.now)

end Timebase

end PinBench
