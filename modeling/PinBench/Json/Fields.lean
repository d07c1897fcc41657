import PinBench.Json.Value
import PinBench.Text.Decimal

/-! Reading a JSON value as data of a known shape.  A record is an object whose keys name its
fields, in any order and among other keys, or a list that holds its fields in their order.  A field
may be absent from the object or cut off the end of the list; a field that an object names twice, or
a list that is too long, is refused. -/

namespace PinBench.Json

def toBool? : Json → Option Bool
  | .bool value => some value
  | _ => none

def toText? : Json → Option String
  | .string text => text
  | _ => none

/-- A natural number below `bound`, written with digits alone. -/
def toNat? (bound : Nat) : Json → Option Nat
  | .number literal =>
    if literal.all Char.isDigit then
      let n := Decimal.ofDigits literal
      if n < bound then some n else none
    else none
  | _ => none

def toUInt8? (j : Json) : Option UInt8 := (j.toNat? UInt8.size).map UInt8.ofNat

def toUInt16? (j : Json) : Option UInt16 := (j.toNat? UInt16.size).map UInt16.ofNat

def toUInt32? (j : Json) : Option UInt32 := (j.toNat? UInt32.size).map UInt32.ofNat

def toUInt64? (j : Json) : Option UInt64 := (j.toNat? UInt64.size).map UInt64.ofNat

/-- A list whose items are all read by `item?`. -/
def toList? {α : Type} (item? : Json → Option α) : Json → Option (List α)
  | .array items => items.mapM item?
  | _ => none

/-- The value of the only member called `name`: `some none` if there is no such member, and `none`
if there are several. -/
def member? (members : List (Option String × Json)) (name : String) : Option (Option Json) :=
  match members.filter (fun m => m.1 == some name) with
  | [] => some none
  | [m] => some (some m.2)
  | _ => none

/-- The fields of a record in the order of their names, each `none` where it is absent. -/
def fields? (names : List String) : Json → Option (List (Option Json))
  | .object members =>
    if members.all (fun m => m.1.isSome) then names.mapM (member? members) else none
  | .array items =>
    if items.length ≤ names.length then
      some (items.map some ++ List.replicate (names.length - items.length) none)
    else none
  | _ => none

/-- A field that may be absent and then has the value `default`. -/
def fieldOr {α : Type} (default : α) (read? : Json → Option α) : Option Json → Option α
  | none => some default
  | some value => read? value

/-- The fields of a record, none of which may be absent. -/
def allFields? (names : List String) (j : Json) : Option (List Json) := do
  let fields ← j.fields? names
  fields.mapM id

end PinBench.Json
