import PinBench.Pins.HardwareModel
import PinBench.Wave.Command

/-! The header of a value change dump.  The dots in a signal's name separate the scopes that it lies
in from its own name; a signal with more parts than the depth limit is left out.  A scope lists its
own variables in the order of the signal table, then its inner scopes in the order of their names.
Variables are numbered in the order in which they are declared. -/

namespace PinBench.Wave

def rootScope : String := "TOP"

/-- A signal that is to be declared: the scopes that it still has to enter, its own name, its place
in the signal table and its width. -/
structure Entry where
  path : List String
  name : String
  signal : SignalId
  width : Nat
  deriving DecidableEq, Repr

/-- The parts of a name between its dots. -/
def splitDots : List Char → List (List Char)
  | [] => [[]]
  | c :: rest =>
    match splitDots rest with
    | [] => [[c]]
    | part :: parts => if c = '.' then [] :: part :: parts else (c :: part) :: parts

/-- The entry of a row of the signal table, unless it has more parts than `depth`. -/
def Entry.ofSignal? (depth : Nat) (id : SignalId) (s : Signal) : Option Entry :=
  let parts := (splitDots s.name.toList).map String.ofList
  if depth < parts.length then none
  else parts.getLast?.map fun name => ⟨parts.dropLast, name, id, s.width⟩

def entries (depth : Nat) (table : List Signal) : List Entry :=
  table.zipIdx.filterMap fun row => Entry.ofSignal? depth row.2 row.1

/-- What a scope declares: a variable, or the start or the end of an inner scope. -/
inductive Declaration where
  | scope (name : String)
  | var (entry : Entry)
  | upscope
  deriving DecidableEq, Repr

/-- The entry inside the scope `name`, if it lies there. -/
def Entry.enter? (name : String) (e : Entry) : Option Entry :=
  match e.path with
  | [] => none
  | scope :: path => if scope = name then some { e with path } else none

/-- The names of the scopes that some entries enter next, in order, each once. -/
def innerScopes (entries : List Entry) : List String :=
  ((entries.filterMap (·.path.head?)).eraseDups).mergeSort fun a b => decide (a ≤ b)

/-- What a scope with some entries declares, when no entry lies more than `levels` scopes deeper. -/
def declare : (levels : Nat) → List Entry → List Declaration
  | 0, entries => (entries.filter (·.path.isEmpty)).map .var
  | levels + 1, entries =>
    (entries.filter (·.path.isEmpty)).map .var ++
      (innerScopes entries).flatMap fun name =>
        .scope name :: (declare levels (entries.filterMap (Entry.enter? name)) ++ [.upscope])

def levelsOf (entries : List Entry) : Nat := (entries.map (·.path.length)).foldl max 0

/-- The declarations of a signal table, inside the outermost scope. -/
def layout (depth : Nat) (table : List Signal) : List Declaration :=
  let entries := entries depth table
  .scope rootScope :: (declare (levelsOf entries) entries ++ [.upscope])

/-- The declared variables, in the order of their declaration. -/
def declared (declarations : List Declaration) : List Entry :=
  declarations.filterMap fun
    | .var e => some e
    | _ => none

/-- The commands of some declarations, when `next` variables have been declared before. -/
def commands (next : Nat) : List Declaration → List Command
  | [] => []
  | .scope name :: rest => .scope name :: commands next rest
  | .var e :: rest => .var e.width next e.name :: commands (next + 1) rest
  | .upscope :: rest => .upscope :: commands next rest

def header (declarations : List Declaration) : List Command :=
  .timescale :: (commands 0 declarations ++ [.endDefinitions])

end PinBench.Wave
