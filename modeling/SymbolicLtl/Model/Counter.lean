import SymbolicLtl.Model.Basic

/-! A sample model: a counter of any width. -/
namespace SymbolicLtl.Model

def counterBit (i : Nat) : String := "x" ++ toString i

def allSet (k : Nat) : String := " & ".intercalate ((List.range k).map counterBit)

/-- A bit changes when all lower ones are set. -/
def counterNext (i : Nat) : String :=
  if i = 0 then "!" ++ counterBit 0 else counterBit i ++ " ^ (" ++ allSet i ++ ")"

/-- A counter that starts at zero and is incremented in every step, modulo `2 ^ bits`. Bit `x0` is
the lowest. -/
def counter (bits : Nat) : Model where
  vars := (List.range bits).map counterBit
  init := " & ".intercalate ((List.range bits).map fun i => "!" ++ counterBit i)
  next := (List.range bits).map fun i => (counterBit i, counterNext i)
  defines := [("max", allSet bits)]

end SymbolicLtl.Model
