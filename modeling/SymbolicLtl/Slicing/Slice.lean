import SymbolicLtl.Diagram.Basic

/-! Slices of the state space: the states in which a few variables have given values. -/
namespace SymbolicLtl

/-- A list of variables with the values they have in the slice. -/
abbrev Slice := List Diagram.Literal

inductive SliceError where
  | negative (var : Int)
  | repeated (var : Int)
deriving DecidableEq, Repr

namespace SliceError

def message : SliceError → String
  | negative v => s!"partition: invalid slice variables: negative variable {v}"
  | repeated v => s!"partition: invalid slice variables: variable {v} used twice"

end SliceError

namespace Slice

def describe (s : Slice) : String :=
  "[" ++ " ".intercalate (s.map fun l => (if l.positive then "" else "!") ++ toString l.var) ++ "]"

/-- Variables are looked at from left to right. -/
def checkVars : (seen : List Int) → List Int → Except SliceError Unit
  | _, [] => .ok ()
  | seen, v :: rest =>
    if v < 0 then .error (.negative v)
    else if seen.contains v then .error (.repeated v)
    else checkVars (v :: seen) rest

/-- Splits every slice by a variable, the true half first. -/
def split (slices : List Slice) (v : Int) : List Slice :=
  slices.flatMap fun s => [s ++ [⟨v, true⟩], s ++ [⟨v, false⟩]]

def all (vars : List Int) : Except SliceError (List Slice) := do
  checkVars [] vars
  return vars.foldl split [[]]

end Slice
end SymbolicLtl
