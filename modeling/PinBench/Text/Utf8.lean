/-! UTF-8.  `encode` writes a text as bytes.  `decode` reads any bytes as text: well-formed
sequences become their characters, and every longest run of bytes that starts a sequence and cannot
continue it becomes one replacement character.  The decoder is a machine that takes one byte at a
time, and its state says which bytes may come next. -/

namespace PinBench.Utf8

def encode (text : List Char) : List UInt8 := text.flatMap String.utf8EncodeChar

/-- The character that stands for bytes that are no text. -/
def replacement : Char := '\ufffd'

/-- Where the decoder stands: between characters, or inside a sequence that still owes `owed + 1`
bytes, of which the next one lies between `low` and `high`.  The bits read so far are `value`. -/
inductive State where
  | start
  | inside (owed : Nat) (low high : Nat) (value : Nat)
  deriving DecidableEq, Repr

/-- The state after a first byte, and the characters that it completes. -/
def first (b : UInt8) : State × List Char :=
  let n := b.toNat
  if n < 0x80 then (.start, [Char.ofNat n])
  else if n < 0xC2 then (.start, [replacement])
  else if n < 0xE0 then (.inside 0 0x80 0xBF (n - 0xC0), [])
  else if n = 0xE0 then (.inside 1 0xA0 0xBF 0, [])
  else if n = 0xED then (.inside 1 0x80 0x9F 0xD, [])
  else if n < 0xF0 then (.inside 1 0x80 0xBF (n - 0xE0), [])
  else if n = 0xF0 then (.inside 2 0x90 0xBF 0, [])
  else if n < 0xF4 then (.inside 2 0x80 0xBF (n - 0xF0), [])
  else if n = 0xF4 then (.inside 2 0x80 0x8F 4, [])
  else (.start, [replacement])

/-- One byte.  A byte that cannot continue a sequence ends it with a replacement character and is
then read as a first byte. -/
def step (state : State) (b : UInt8) : State × List Char :=
  match state with
  | .start => first b
  | .inside owed low high value =>
    let n := b.toNat
    if low ≤ n ∧ n ≤ high then
      let value := value * 64 + n % 64
      match owed with
      | 0 => (.start, [Char.ofNat value])
      | owed + 1 => (.inside owed 0x80 0xBF value, [])
    else
      let (state, chars) := first b
      (state, replacement :: chars)

/-- The characters read so far, last one first, and the state after them. -/
def push (acc : State × List Char) (b : UInt8) : State × List Char :=
  let (state, chars) := step acc.1 b
  (state, chars.reverse ++ acc.2)

def decode (bytes : List UInt8) : List Char :=
  match bytes.foldl push (.start, []) with
  | (.start, chars) => chars.reverse
  | (.inside .., chars) => (replacement :: chars).reverse

end PinBench.Utf8
