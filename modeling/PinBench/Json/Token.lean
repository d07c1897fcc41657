import PinBench.Json.Value

/-! The tokens of JSON text, and a scanner that takes one character at a time.  Blanks between
tokens are space, tab, line feed and carriage return.  A number has no leading zeros, digits on both
sides of a point, and digits after an exponent mark.  A string holds no raw control characters, and
its escapes are those of JSON. -/

namespace PinBench.Json

inductive Token where
  | openBrace
  | closeBrace
  | openBracket
  | closeBracket
  | colon
  | comma
  | null
  | bool (value : Bool)
  | number (literal : List Char)
  | string (text : Option String)
  deriving DecidableEq, Repr

/-- One element of a string: a character, or half of a surrogate pair. -/
inductive Piece where
  | char (c : Char)
  | high (unit : Nat)
  | low (unit : Nat)
  deriving DecidableEq, Repr

/-- The piece that an escape of the code unit `unit` stands for. -/
def Piece.ofUnit (unit : Nat) : Piece :=
  if 0xD800 ≤ unit ∧ unit < 0xDC00 then .high unit
  else if 0xDC00 ≤ unit ∧ unit < 0xE000 then .low unit
  else .char (Char.ofNat unit)

/-- The text of a string, if its surrogates come in pairs. -/
def textOfPieces? : List Piece → Option (List Char)
  | [] => some []
  | .char c :: rest => (textOfPieces? rest).map (c :: ·)
  | .high h :: .low l :: rest =>
    (textOfPieces? rest).map (Char.ofNat (0x10000 + (h - 0xD800) * 0x400 + (l - 0xDC00)) :: ·)
  | _ => none

/-- Where a scanner stands in a number, named for what it read last. -/
inductive NumberPhase where
  | sign
  | zero
  | whole
  | point
  | fraction
  | mark
  | markSign
  | exponent
  deriving DecidableEq, Repr

/-- The phase after one more character of a number, or `none` if the number does not go on. -/
def NumberPhase.next? (phase : NumberPhase) (c : Char) : Option NumberPhase :=
  match phase with
  | .sign => if c = '0' then some .zero else if c.isDigit then some .whole else none
  | .zero => if c = '.' then some .point else if c = 'e' ∨ c = 'E' then some .mark else none
  | .whole =>
    if c.isDigit then some .whole else if c = '.' then some .point
    else if c = 'e' ∨ c = 'E' then some .mark else none
  | .point => if c.isDigit then some .fraction else none
  | .fraction =>
    if c.isDigit then some .fraction else if c = 'e' ∨ c = 'E' then some .mark else none
  | .mark =>
    if c = '+' ∨ c = '-' then some .markSign else if c.isDigit then some .exponent else none
  | .markSign => if c.isDigit then some .exponent else none
  | .exponent => if c.isDigit then some .exponent else none

/-- Whether a number may end here. -/
def NumberPhase.complete : NumberPhase → Bool
  | .zero | .whole | .fraction | .exponent => true
  | _ => false

/-- Where a scanner stands: between tokens, or inside one.  What has been read of a number or a
string is kept last piece first. -/
inductive Scan where
  | between
  | word (rest : List Char) (token : Token)
  | number (phase : NumberPhase) (literal : List Char)
  | string (pieces : List Piece)
  | escape (pieces : List Piece)
  | unit (pieces : List Piece) (owed : Nat) (value : Nat)
  deriving Repr

/-- The value of a hexadecimal digit of either case. -/
def hexDigit? (c : Char) : Option Nat :=
  if c.isDigit then some (c.toNat - '0'.toNat)
  else if 'a' ≤ c ∧ c ≤ 'f' then some (c.toNat - 'a'.toNat + 10)
  else if 'A' ≤ c ∧ c ≤ 'F' then some (c.toNat - 'A'.toNat + 10)
  else none

/-- The character that a backslash and `c` stand for. -/
def escaped? (c : Char) : Option Char :=
  match c with
  | '"' => some '"'
  | '\\' => some '\\'
  | '/' => some '/'
  | 'b' => some '\x08'
  | 'f' => some '\x0c'
  | 'n' => some '\n'
  | 'r' => some '\r'
  | 't' => some '\t'
  | _ => none

/-- The first character of a token: the tokens that it completes, and where the scanner then
stands. -/
def Scan.first? (c : Char) : Option (List Token × Scan) :=
  match c with
  | ' ' | '\t' | '\n' | '\r' => some ([], .between)
  | '{' => some ([.openBrace], .between)
  | '}' => some ([.closeBrace], .between)
  | '[' => some ([.openBracket], .between)
  | ']' => some ([.closeBracket], .between)
  | ':' => some ([.colon], .between)
  | ',' => some ([.comma], .between)
  | '"' => some ([], .string [])
  | 'n' => some ([], .word ['u', 'l', 'l'] .null)
  | 't' => some ([], .word ['r', 'u', 'e'] (.bool true))
  | 'f' => some ([], .word ['a', 'l', 's', 'e'] (.bool false))
  | '-' => some ([], .number .sign ['-'])
  | _ => (NumberPhase.sign.next? c).map fun phase => ([], .number phase [c])

/-- One character: the tokens that it completes, and where the scanner then stands, or `none` if
no text goes on like this. -/
def Scan.step? (s : Scan) (c : Char) : Option (List Token × Scan) :=
  match s with
  | .between => first? c
  | .word [] _ => none
  | .word [e] token => if c = e then some ([token], .between) else none
  | .word (e :: rest) token => if c = e then some ([], .word rest token) else none
  | .number phase literal =>
    match phase.next? c with
    | some phase => some ([], .number phase (c :: literal))
    | none =>
      if phase.complete then
        (first? c).map fun (tokens, s) => (.number literal.reverse :: tokens, s)
      else none
  | .string pieces =>
    if c = '"' then
      some ([.string ((textOfPieces? pieces.reverse).map String.ofList)], .between)
    else if c = '\\' then some ([], .escape pieces)
    else if c.toNat < 0x20 then none
    else some ([], .string (.char c :: pieces))
  | .escape pieces =>
    if c = 'u' then some ([], .unit pieces 3 0)
    else (escaped? c).map fun c => ([], .string (.char c :: pieces))
  | .unit pieces owed value =>
    (hexDigit? c).map fun digit =>
      let value := value * 16 + digit
      match owed with
      | 0 => ([], .string (.ofUnit value :: pieces))
      | owed + 1 => ([], .unit pieces owed value)

/-- The tokens that the end of the text completes. -/
def Scan.finish? : Scan → Option (List Token)
  | .between => some []
  | .number phase literal => if phase.complete then some [.number literal.reverse] else none
  | _ => none

/-- One character, after the tokens of `acc`, which are kept last one first. -/
def Scan.push? (acc : List Token × Scan) (c : Char) : Option (List Token × Scan) :=
  (acc.2.step? c).map fun (tokens, s) => (tokens.reverse ++ acc.1, s)

def tokens? (text : List Char) : Option (List Token) := do
  let (tokens, s) ← text.foldlM Scan.push? ([], .between)
  let last ← s.finish?
  return (last.reverse ++ tokens).reverse

end PinBench.Json
