/-! JSON values.  A number is kept as it is written, because what it may stand for depends on where
it is used.  A string is kept as the text it stands for, or as `none` when its escapes hold half of
a surrogate pair and so stand for no text.  The members of an object are kept in order, equal keys
included. -/

namespace PinBench

inductive Json where
  | null
  | bool (value : Bool)
  | number (literal : List Char)
  | string (text : Option String)
  | array (items : List Json)
  | object (members : List (Option String × Json))
  deriving Inhabited, Repr

namespace Json

/-- The string that stands for a text. -/
def text (s : String) : Json := .string (some s)

def nat (n : Nat) : Json := .number (Nat.toDigits 10 n)

/-- An object with the given keys, in order. -/
def record (members : List (String × Json)) : Json :=
  .object (members.map fun m => (some m.1, m.2))

mutual

/-- How deep arrays and objects are nested: zero for a value that is neither. -/
def depth : Json → Nat
  | .array items => depthOfItems items + 1
  | .object members => depthOfMembers members + 1
  | _ => 0

def depthOfItems : List Json → Nat
  | [] => 0
  | item :: rest => max item.depth (depthOfItems rest)

def depthOfMembers : List (Option String × Json) → Nat
  | [] => 0
  | (_, value) :: rest => max value.depth (depthOfMembers rest)

end

mutual

/-- Whether every number in a value passes `okNumber` and every string and every key is a text. -/
def wellFormed (okNumber : List Char → Bool) : Json → Bool
  | .number literal => okNumber literal
  | .string text => text.isSome
  | .array items => wellFormedItems okNumber items
  | .object members => wellFormedMembers okNumber members
  | _ => true

def wellFormedItems (okNumber : List Char → Bool) : List Json → Bool
  | [] => true
  | item :: rest => item.wellFormed okNumber && wellFormedItems okNumber rest

def wellFormedMembers (okNumber : List Char → Bool) : List (Option String × Json) → Bool
  | [] => true
  | (key, value) :: rest =>
    key.isSome && value.wellFormed okNumber && wellFormedMembers okNumber rest

end

end Json

end PinBench
