import PinBench.Text.Utf8

/-! Escaped bytes in a text.  A backslash before `n`, `r`, `t` or another backslash stands for one
byte, and `\xHH` for the byte with that hexadecimal value.  Everything else stands for its own
UTF-8 bytes, a backslash that starts none of these included. -/

namespace PinBench.Escape

/-- The value of a hexadecimal digit of either case. -/
def hexDigit? (c : Char) : Option Nat :=
  if '0' ≤ c ∧ c ≤ '9' then some (c.toNat - '0'.toNat)
  else if 'a' ≤ c ∧ c ≤ 'f' then some (c.toNat - 'a'.toNat + 10)
  else if 'A' ≤ c ∧ c ≤ 'F' then some (c.toNat - 'A'.toNat + 10)
  else none

/-- The byte that two characters name in base 16.  A plus sign may stand before a single digit. -/
def hexByte? (a b : Char) : Option UInt8 :=
  if a = '+' then (hexDigit? b).map UInt8.ofNat
  else
    match hexDigit? a, hexDigit? b with
    | some high, some low => some (UInt8.ofNat (16 * high + low))
    | _, _ => none

/-- The bytes that an escaped text stands for. -/
def expand : List Char → List UInt8
  | '\\' :: 'n' :: rest => 10 :: expand rest
  | '\\' :: 'r' :: rest => 13 :: expand rest
  | '\\' :: 't' :: rest => 9 :: expand rest
  | '\\' :: '\\' :: rest => 92 :: expand rest
  | '\\' :: tail@('x' :: a :: b :: rest) =>
    match hexByte? a b with
    | some byte => byte :: expand rest
    | none => 92 :: expand tail
  | c :: rest => String.utf8EncodeChar c ++ expand rest
  | [] => []

end PinBench.Escape
