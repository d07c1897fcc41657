import PinBench.Bench.Run
import PinBench.Serial.Words

/-! Running a bench on a machine with words.  The serial link takes sums of times that may not fit
into a word.  Then the machine either wraps them or stops the program in the middle of an iteration;
all other sums of a bench stop at the last instant. -/

namespace PinBench.Bench

variable {M : Type} [HardwareModel M]

/-- `tickSerial`, with sums in words. -/
def tickSerialIn (o : Overflow) (b : Bench M) : Option (Bench M) :=
  match b.serial with
  | some p => (p.tickIn o b.time.now b.fixture).map fun (p, fixture) =>
    { b with serial := some p, fixture }
  | none => some b

/-- `exchange`, with sums in words. -/
def exchangeIn (o : Overflow) (b : Bench M) : Option (Bench M × Option Cause) :=
  (b.tickSerialIn o).map tickOthers

/-- One iteration and what happens outside the bench around it, with sums in words. -/
def turnIn (o : Overflow) (b : Bench M) (arrivals : Arrivals) : Option (Bench M × Option Cause) :=
  ((b.actAll arrivals.actions).releaseReset.settle.exchangeIn o).map fun (b, request) =>
    b.proceed arrivals.stop request

/-- `runFrom`, with sums in words.  If the program stops, the result is the number of the iteration
in which it does. -/
def runFromIn (o : Overflow) (schedule : Schedule) (n : Nat) (b : Bench M) (fuel : Nat) :
    Option (Except Nat (Bench M × Cause × Nat)) :=
  match fuel with
  | 0 => none
  | fuel + 1 =>
    match b.turnIn o (schedule n) with
    | none => some (.error n)
    | some (b, some cause) => some (.ok (b, cause, n))
    | some (b, none) => runFromIn o schedule (n + 1) b fuel

/-- `run`, with sums in words. -/
def runIn (o : Overflow) (schedule : Schedule) (n : Nat) (b : Bench M) (fuel : Nat) :
    Option (Except Nat (Report × Bench M × Nat)) :=
  (runFromIn o schedule n b fuel).map fun result => result.map fun (b, cause, last) =>
    let (report, b) := b.conclude cause
    (report, b, last + 1)

end PinBench.Bench
