import PinBench.Word

/-! The commands of a value change dump.  The header declares scopes and variables; the body is a
sequence of time marks, each followed by the changes at that time.  A variable is known by its
number, in the order of declaration, and is written with a code made of printable characters. -/

namespace PinBench.Wave

/-- A command of a value change dump. -/
inductive Command where
  | timescale
  | scope (name : String)
  | var (width : Nat) (id : Nat) (name : String)
  | upscope
  | endDefinitions
  | time (now : Nat)
  /-- The level of a variable of one bit. -/
  | scalar (id : Nat) (level : Bool)
  /-- The levels of a variable of any other width, most significant first. -/
  | vector (id : Nat) (levels : List Bool)
  deriving DecidableEq, Repr

/-- How many characters a code is made of: those from `!` to `~`. -/
def codeBase : Nat := 94

/-- The digits of a code, least significant first.  Every digit stands for one more than its place
in the alphabet, so that codes of different lengths are different. -/
def codeDigits (id : Nat) : List Nat :=
  if id < codeBase then [id] else id % codeBase :: codeDigits (id / codeBase - 1)
termination_by id
decreasing_by have : 0 < codeBase := by decide
              rename_i h
              have := Nat.div_le_self id codeBase
              have : 0 < id := by simp only [codeBase] at h; omega
              omega

def code (id : Nat) : List Char :=
  ((codeDigits id).map fun d => Char.ofNat ('!'.toNat + d)).reverse

def levelChar (level : Bool) : Char := if level then '1' else '0'

/-- The low `width` bits of a word, most significant first. -/
def levels (width : Nat) (value : Word) : List Bool :=
  ((List.range width).map value.getLsbD).reverse

/-- The change of a variable to a value. -/
def Command.change (width id : Nat) (value : Word) : Command :=
  if width = 1 then .scalar id (value.getLsbD 0) else .vector id (levels width value)

/-- The line of a command, without its end. -/
def Command.line : Command → String
  | .timescale => "$timescale 1 ns $end"
  | .scope name => "$scope module " ++ name ++ " $end"
  | .var width id name =>
    "$var wire " ++ toString width ++ " " ++ String.ofList (code id) ++ " " ++ name ++ " $end"
  | .upscope => "$upscope $end"
  | .endDefinitions => "$enddefinitions $end"
  | .time now => "#" ++ toString now
  | .scalar id level => String.ofList (levelChar level :: code id)
  | .vector id levels => String.ofList ('b' :: (levels.map levelChar ++ ' ' :: code id))

/-- The text of a list of commands: one line for each. -/
def render (commands : List Command) : String :=
  commands.foldl (fun text c => text ++ c.line ++ "\n") ""

end PinBench.Wave
