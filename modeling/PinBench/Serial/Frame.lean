/-! Serial frames.  A byte travels as ten bits of equal length: a low start bit, eight data bits,
least significant first, and a high stop bit. -/

namespace PinBench.Serial

def nanosPerSecond : Nat := 1000000000

/-- Bits of a frame: start, data and stop. -/
def frameBits : Nat := 10

/-- The rate of a line unless another one is configured. -/
def defaultBaudRate : UInt32 := 115200

/-- The length of one bit in whole nanoseconds.  A rate of zero counts as one. -/
def bitPeriod (baudRate : UInt32) : Nat := nanosPerSecond / max baudRate.toNat 1

/-- The part of a frame that a line is in. -/
inductive Phase where
  | idle
  | start
  | data (bit : Fin 8)
  | stop
  deriving DecidableEq, Repr

def firstBit : Fin 8 := 0

/-- The data bit that is sent after bit `i`, if there is one. -/
def nextBit? (i : Fin 8) : Option (Fin 8) := if h : i.val + 1 < 8 then some ⟨i.val + 1, h⟩ else none

/-- `byte` with data bit `i` raised if `level` is high. -/
def raiseBit (byte : UInt8) (i : Fin 8) (level : Bool) : UInt8 :=
  if level then ⟨byte.toBitVec ||| (1#8 <<< i.val)⟩ else byte

end PinBench.Serial
