/-! Whether a number is small enough for a binary64 value.  The significand is made of the leading
digits that fit in 64 bits, and the digits after them count only towards the exponent.  The
significand and the power of ten are rounded to binary64, then their product is.  A number is out of
range when that product is, when its power of ten is beyond `10^308`, or when its exponent does not
fit in 31 bits; zero is never out of range. -/

namespace PinBench.Json

/-- A natural number rounded to 53 significant bits, ties to even. -/
def roundToBinary64 (n : Nat) : Nat :=
  let drop := n.log2 + 1 - 53
  let unit := 1 <<< drop
  let low := n % unit
  let kept := n / unit
  if drop = 0 then n
  else if unit < 2 * low ∨ (2 * low = unit ∧ kept % 2 = 1) then (kept + 1) * unit
  else kept * unit

/-- The least number that rounds past the largest finite binary64 value. -/
def binary64Limit : Nat := (1 <<< 1024) - (1 <<< 970)

/-- The parts of a number: the digits before the point, those after it, and the exponent's sign and
digits. -/
structure NumberParts where
  whole : List Char
  fraction : List Char
  negativeExponent : Bool
  exponent : List Char
  deriving Repr

/-- The parts of a number as it is written. -/
def NumberParts.ofLiteral (literal : List Char) : NumberParts :=
  let digits := match literal with
    | '-' :: rest => rest
    | _ => literal
  let whole := digits.takeWhile Char.isDigit
  let rest := digits.dropWhile Char.isDigit
  let (fraction, rest) := match rest with
    | '.' :: rest => (rest.takeWhile Char.isDigit, rest.dropWhile Char.isDigit)
    | _ => ([], rest)
  match rest with
  | _ :: '-' :: exponent => ⟨whole, fraction, true, exponent⟩
  | _ :: '+' :: exponent => ⟨whole, fraction, false, exponent⟩
  | _ :: exponent => ⟨whole, fraction, false, exponent⟩
  | [] => ⟨whole, fraction, false, []⟩

/-- The number that the leading digits make up as long as it stays below `bound`, and how many
digits come after them. -/
def leadingDigits (bound : Nat) (value : Nat) : List Char → Nat × Nat
  | [] => (value, 0)
  | c :: rest =>
    let next := value * 10 + (c.toNat - '0'.toNat)
    if next < bound then leadingDigits bound next rest else (value, rest.length + 1)

/-- The significand, and the power of ten that the point and the dropped digits give. -/
def NumberParts.significand (p : NumberParts) : Nat × Int :=
  let (value, dropped) := leadingDigits UInt64.size 0 p.whole
  let (value, unused) := leadingDigits UInt64.size value p.fraction
  (value, (dropped : Int) - ((p.fraction.length - unused : Nat) : Int))

/-- The least exponent that has no room in 31 bits. -/
def exponentBound : Nat := 2147483648

def fitsBinary64 (literal : List Char) : Bool :=
  let parts := NumberParts.ofLiteral literal
  let (value, scale) := parts.significand
  let (exponent, beyond) := leadingDigits exponentBound 0 parts.exponent
  if value = 0 then true
  else if parts.negativeExponent then
    0 < beyond || decide (scale ≤ exponent) || small value (scale - exponent).toNat
  else beyond = 0 && (decide (scale + exponent < 0) || small value (scale + exponent).toNat)
where
  /-- Whether `value * 10 ^ power` is in range. -/
  small (value power : Nat) : Bool :=
    power ≤ 308 && roundToBinary64 value * roundToBinary64 (Nat.pow 10 power) < binary64Limit

end PinBench.Json
