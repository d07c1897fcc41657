/-! Decimal numbers: digits to a number, a bounded number as it is written in an argument, and a
number as digits. -/

namespace PinBench.Decimal

/-- The number that a list of digits stands for. -/
def ofDigits (digits : List Char) : Nat :=
  digits.foldl (fun n c => n * 10 + (c.toNat - '0'.toNat)) 0

/-- Reads a number below `bound`: one or more ASCII digits, with or without one `+` in front. -/
def read? (bound : Nat) (text : List Char) : Option Nat :=
  let digits := match text with
    | '+' :: rest => rest
    | _ => text
  if digits.isEmpty || !digits.all Char.isDigit then none
  else
    let n := ofDigits digits
    if n < bound then some n else none

/-- The digits of a number, without leading zeros. -/
def write (n : Nat) : List Char := Nat.toDigits 10 n

end PinBench.Decimal
