import PinBench.Json.Token

/-! JSON text to JSON value.  The reader takes one token at a time and keeps the arrays and objects
that are still open on a stack, so that text may nest to any depth. -/

namespace PinBench.Json

/-- An array or an object that is still open.  What it holds is kept last one first; an object also
keeps the key whose value comes next. -/
inductive Frame where
  | array (items : List Json)
  | object (members : List (Option String × Json)) (key : Option String)
  deriving Repr

/-- What the reader takes next. -/
inductive Expect where
  | value
  | firstItem
  | firstKey
  | key
  | colon
  | separator
  | nothing (result : Json)
  deriving Repr

/-- The open containers, innermost first, and what comes next. -/
structure Reading where
  stack : List Frame
  expect : Expect
  deriving Repr

namespace Reading

def start : Reading := ⟨[], .value⟩

/-- A value is complete: it goes into the innermost open container, or is the result. -/
def deliver (stack : List Frame) (value : Json) : Reading :=
  match stack with
  | [] => ⟨[], .nothing value⟩
  | .array items :: rest => ⟨.array (value :: items) :: rest, .separator⟩
  | .object members key :: rest => ⟨.object ((key, value) :: members) none :: rest, .separator⟩

def value? (stack : List Frame) : Token → Option Reading
  | .null => some (deliver stack .null)
  | .bool b => some (deliver stack (.bool b))
  | .number literal => some (deliver stack (.number literal))
  | .string text => some (deliver stack (.string text))
  | .openBracket => some ⟨.array [] :: stack, .firstItem⟩
  | .openBrace => some ⟨.object [] none :: stack, .firstKey⟩
  | _ => none

/-- The token after the opening brace or after a comma: the key of a member. -/
def key? (stack : List Frame) (token : Token) : Option Reading :=
  match stack, token with
  | .object members _ :: rest, .string text => some ⟨.object members text :: rest, .colon⟩
  | _, _ => none

/-- The token that closes the innermost container. -/
def close? (stack : List Frame) (token : Token) : Option Reading :=
  match stack, token with
  | .array items :: rest, .closeBracket => some (deliver rest (.array items.reverse))
  | .object members _ :: rest, .closeBrace => some (deliver rest (.object members.reverse))
  | _, _ => none

/-- One token, or `none` if it cannot stand here. -/
def step? (r : Reading) (token : Token) : Option Reading :=
  match r.expect with
  | .value => value? r.stack token
  | .firstItem => if token = .closeBracket then close? r.stack token else value? r.stack token
  | .firstKey => if token = .closeBrace then close? r.stack token else key? r.stack token
  | .key => key? r.stack token
  | .colon => if token = .colon then some ⟨r.stack, .value⟩ else none
  | .separator =>
    if token = .comma then
      match r.stack with
      | .array _ :: _ => some ⟨r.stack, .value⟩
      | .object _ _ :: _ => some ⟨r.stack, .key⟩
      | [] => none
    else close? r.stack token
  | .nothing _ => none

/-- The value that was read, if it is complete. -/
def result? (r : Reading) : Option Json :=
  match r.expect with
  | .nothing value => some value
  | _ => none

end Reading

/-- The value that a list of tokens writes. -/
def ofTokens? (tokens : List Token) : Option Json :=
  (tokens.foldlM Reading.step? Reading.start).bind Reading.result?

/-- The value that a text writes, with blanks before and after it but nothing else. -/
def read? (text : List Char) : Option Json := (tokens? text).bind ofTokens?

end PinBench.Json
