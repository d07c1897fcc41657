import PinBench.Json.Fields
import PinBench.Json.Magnitude
import PinBench.Json.Printer
import PinBench.Json.Reader
import PinBench.Telemetry.Channel
import PinBench.Text.Utf8

/-! The messages between a telemetry server and its observer.  Each is one line of JSON with a tag
that tells its kind.  A message may also be written as a list of the tag and the fields; the fields
of a message are all needed.  Because the tag may stand anywhere, the whole message has to be
representable: texts in every string, numbers in the range of binary64, and at most 127 levels of
brackets. -/

namespace PinBench.Telemetry

open Json

inductive ServerMessage where
  | register (inputs : List InputChannel) (outputs : List OutputChannel)
  | output (change : Change)
  deriving DecidableEq, Repr

inductive ObserverMessage where
  /-- The values of the input channels, where zero stands for a low level. -/
  | inputs (values : List UInt64)
  deriving DecidableEq, Repr

/-- The deepest nesting of a message. -/
def maxDepth : Nat := 127

/-- Whether all of a message can be represented. -/
def representable (j : Json) : Bool := decide (j.depth ≤ maxDepth) && j.wellFormed fitsBinary64

/-- The tag of a message and its fields. -/
def tagged? (j : Json) : Option (String × Json) :=
  if representable j then
    match j with
    | .object members => do
      let tag ← (← member? members "type") >>= Json.toText?
      return (tag, .object (members.filter (fun m => m.1 != some "type")))
    | .array (tag :: rest) => tag.toText?.map fun tag => (tag, .array rest)
    | _ => none
  else none

namespace InputChannel

def toJson (c : InputChannel) : Json := .record [("name", .text c.name), ("bit", .nat c.bit.toNat)]

def ofJson? (j : Json) : Option InputChannel :=
  match j.allFields? ["name", "bit"] with
  | some [name, bit] => do return ⟨← name.toText?, ← bit.toUInt32?⟩
  | _ => none

end InputChannel

namespace OutputChannel

/-- The channel as JSON.  The kind adds its own members. -/
def toJson (c : OutputChannel) : Json :=
  .record ([("id", .nat c.id.toNat), ("name", .text c.name)] ++
    match c.kind with
    | .level bit => [("kind", .text "level"), ("bit", .nat bit.toNat)]
    | .stream => [("kind", .text "stream")])

/-- Whether a kind is the level kind, by its name or its number. -/
def levelKind? (kind : Json) : Option Bool :=
  match kind.toText?, kind.toNat? 2 with
  | some "level", _ => some true
  | some "stream", _ => some false
  | none, some n => some (n == 0)
  | _, _ => none

/-- Reads a channel, which has to be an object. -/
def ofJson? (j : Json) : Option OutputChannel :=
  match j with
  | .object members => do
    let id ← (← member? members "id") >>= toUInt32?
    let name ← (← member? members "name") >>= toText?
    if ← (← member? members "kind") >>= levelKind? then
      let bit ← (← member? members "bit") >>= toUInt32?
      return ⟨id, name, .level bit⟩
    else return ⟨id, name, .stream⟩
  | _ => none

end OutputChannel

namespace ServerMessage

def toJson : ServerMessage → Json
  | .register inputs outputs =>
    .record [("type", .text "register"), ("inputs", .array (inputs.map InputChannel.toJson)),
      ("outputs", .array (outputs.map OutputChannel.toJson))]
  | .output c =>
    .record [("type", .text "output"), ("channel", .text c.channel), ("value", .nat c.value.toNat),
      ("time", .nat c.time.toNat)]

def ofJson? (j : Json) : Option ServerMessage :=
  match tagged? j with
  | some ("register", fields) =>
    match fields.allFields? ["inputs", "outputs"] with
    | some [inputs, outputs] => do
      return .register (← inputs.toList? InputChannel.ofJson?)
        (← outputs.toList? OutputChannel.ofJson?)
    | _ => none
  | some ("output", fields) =>
    match fields.allFields? ["channel", "value", "time"] with
    | some [channel, value, time] => do
      return .output ⟨← channel.toText?, ← value.toUInt64?, ← time.toUInt64?⟩
    | _ => none
  | _ => none

def print (m : ServerMessage) : List Char := m.toJson.print

def read? (text : List Char) : Option ServerMessage := (Json.read? text).bind ofJson?

/-- The bytes of a message on the wire, which end with a line feed. -/
def line (m : ServerMessage) : List UInt8 := Utf8.encode m.print ++ [10]

end ServerMessage

namespace ObserverMessage

def toJson : ObserverMessage → Json
  | .inputs values =>
    .record [("type", .text "inputs"), ("values", .array (values.map fun v => .nat v.toNat))]

def ofJson? (j : Json) : Option ObserverMessage :=
  match tagged? j with
  | some ("inputs", fields) =>
    match fields.allFields? ["values"] with
    | some [values] => (values.toList? toUInt64?).map .inputs
    | _ => none
  | _ => none

def print (m : ObserverMessage) : List Char := m.toJson.print

def read? (text : List Char) : Option ObserverMessage := (Json.read? text).bind ofJson?

/-- The bytes of a message on the wire, which end with a line feed. -/
def line (m : ObserverMessage) : List UInt8 := Utf8.encode m.print ++ [10]

end ObserverMessage

end PinBench.Telemetry
