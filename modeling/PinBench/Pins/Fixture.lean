import PinBench.Pins.HardwareModel

/-! A fixture: a model whose signals are bound to roles.  An assignment names a signal for each role
that should be served.  Binding looks the names up in the model's table and fails when a signal has
the wrong direction; a name that the table lacks leaves its role unbound.  From then on the bench
reads and writes roles: an unbound role reads as zero, and a write is cut to the width of the signal
and only ever reaches a signal that the bench drives. -/

namespace PinBench

inductive PinError where
  | unknownSignal (name : String)
  | directionMismatch (role : Role) (name : String)
  | missingRole (role : Role)
  deriving DecidableEq, Repr

def PinError.message : PinError → String
  | .unknownSignal name => "model has no signal named `" ++ name ++ "`"
  | .directionMismatch role name =>
    "signal `" ++ name ++ "` bound to " ++ role.label ++ " must be " ++ role.direction.label
  | .missingRole role => role.label ++ " pin is required but the model does not provide it"

/-- The signal name for each role that should be served. -/
structure Assignment where
  name? : Role → Option String

namespace Assignment

/-- Every role by its default signal. -/
def standard : Assignment := ⟨fun role => some role.defaultSignal⟩

/-- The same assignment with `role` served by the signal `name`. -/
def assign (a : Assignment) (role : Role) (name : String) : Assignment :=
  ⟨fun r => if r = role then some name else a.name? r⟩

def without (a : Assignment) (role : Role) : Assignment :=
  ⟨fun r => if r = role then none else a.name? r⟩

end Assignment

/-- The signal that serves a role and the bits that it uses. -/
structure Binding where
  signal : SignalId
  mask : Word
  deriving DecidableEq, Repr

/-- The first row of a table with a given name, and its place. -/
def findSignal? (table : List Signal) (name : String) : Option (SignalId × Signal) :=
  (table.zipIdx.find? fun row => row.1.name == name).map fun row => (row.2, row.1)

/-- What an assignment does with one role: it is served, left alone, or in error. -/
def Assignment.resolve (a : Assignment) (table : List Signal) (role : Role) :
    Except PinError (Option Binding) :=
  match a.name? role with
  | none => .ok none
  | some name =>
    match findSignal? table name with
    | none => .ok none
    | some (id, signal) =>
      if signal.direction = role.direction then .ok (some ⟨id, signal.mask⟩)
      else .error (.directionMismatch role name)

/-- A model whose signals are bound to roles. -/
structure Fixture (M : Type) where
  model : M
  bindings : Vector (Option Binding) Role.count

namespace Fixture

variable {M : Type} [HardwareModel M]

/-- Binds every role that an assignment names.  The first role in error decides the error. -/
def bind (model : M) (a : Assignment) : Except PinError (Fixture M) := do
  let bindings ← Role.all.mapM (a.resolve (HardwareModel.signals model))
  return ⟨model, Vector.ofFn fun i => (bindings[i.val]?).join⟩

def binding? (f : Fixture M) (role : Role) : Option Binding := f.bindings[role.index]

def bound (f : Fixture M) (role : Role) : Bool := (f.binding? role).isSome

/-- An error unless a role is served. -/
def require (f : Fixture M) (role : Role) : Except PinError Unit :=
  if f.bound role then .ok () else .error (.missingRole role)

/-- The number of bits of a role, if it is served. -/
def width? (f : Fixture M) (role : Role) : Option Nat :=
  (f.binding? role).map fun b => ((List.range 64).filter b.mask.getLsbD).length

/-- The place of a signal by its name. -/
def signalId (f : Fixture M) (name : String) : Except PinError SignalId :=
  match findSignal? (HardwareModel.signals f.model) name with
  | some (id, _) => .ok id
  | none => .error (.unknownSignal name)

def read (f : Fixture M) (role : Role) : Word :=
  match f.binding? role with
  | some b => HardwareModel.read f.model b.signal &&& b.mask
  | none => 0

/-- Drives a role.  Nothing happens if it is not served or if the model drives it. -/
def write (f : Fixture M) (role : Role) (value : Word) : Fixture M :=
  match role.direction, f.binding? role with
  | .hostDriven, some b =>
    { f with model := HardwareModel.write f.model b.signal (value &&& b.mask) }
  | _, _ => f

/-- Drives a one-bit role to a level. -/
def drive (f : Fixture M) (role : Role) (level : Bool) : Fixture M :=
  f.write role (Word.ofLevel level)

/-- Replaces `width` bits of a role from `lsb` on and keeps the others. -/
def writeField (f : Fixture M) (role : Role) (lsb width : Nat) (value : Word) : Fixture M :=
  if 64 ≤ lsb then f else f.write role ((f.read role).setField lsb width value)

def eval (f : Fixture M) : Fixture M := { f with model := HardwareModel.eval f.model }

def finished (f : Fixture M) : Bool := HardwareModel.finished f.model

end Fixture

end PinBench
