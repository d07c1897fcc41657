import PinBench.Json.Value

/-! JSON value to JSON text, without blanks.  A string escapes the quote, the backslash and the
control characters: the five that have an escape of their own by it, the others by their code.
Every other character is written as it is. -/

namespace PinBench.Json

/-- A hexadecimal digit, in lower case. -/
def hexDigit (n : Nat) : Char := Nat.digitChar (n % 16)

def printChar (c : Char) : List Char :=
  match c with
  | '"' => ['\\', '"']
  | '\\' => ['\\', '\\']
  | '\x08' => ['\\', 'b']
  | '\x0c' => ['\\', 'f']
  | '\n' => ['\\', 'n']
  | '\r' => ['\\', 'r']
  | '\t' => ['\\', 't']
  | _ =>
    if c.toNat < 0x20 then ['\\', 'u', '0', '0', hexDigit (c.toNat / 16), hexDigit c.toNat]
    else [c]

/-- A string.  One that stands for no text is written empty. -/
def printText (text : Option String) : List Char :=
  '"' :: ((text.getD "").toList.flatMap printChar ++ ['"'])

mutual

def print : Json → List Char
  | .null => ['n', 'u', 'l', 'l']
  | .bool true => ['t', 'r', 'u', 'e']
  | .bool false => ['f', 'a', 'l', 's', 'e']
  | .number literal => literal
  | .string text => printText text
  | .array [] => ['[', ']']
  | .array (item :: rest) => '[' :: (item.print ++ printItems rest)
  | .object [] => ['{', '}']
  | .object ((key, value) :: rest) =>
    '{' :: (printText key ++ ':' :: (value.print ++ printMembers rest))

/-- The items after the first, and the bracket that closes the array. -/
def printItems : List Json → List Char
  | [] => [']']
  | item :: rest => ',' :: (item.print ++ printItems rest)

/-- The members after the first, and the brace that closes the object. -/
def printMembers : List (Option String × Json) → List Char
  | [] => ['}']
  | (key, value) :: rest => ',' :: (printText key ++ ':' :: (value.print ++ printMembers rest))

end

/-- The text of a value as a string. -/
def render (j : Json) : String := String.ofList j.print

end PinBench.Json
