import SymbolicLtl.Log
import SymbolicLtl.Text.Columns

/-! The answer to a check and its description. -/
namespace SymbolicLtl

/-- The answer to a check. A property that does not hold has accepting automaton states that
witness it, each with the number of system states. -/
structure Response where
  holds : Bool
  safety : Bool
  violating : List Int
  witnesses : List String
  statistic : Statistic
deriving DecidableEq, Repr

namespace Response

def violated (r : Response) : Bool := !r.holds

/-- One line for each witness; there must be as many numbers of system states. -/
def witnessLines : List Int → List String → Except Misuse String
  | [], _ => return ""
  | _ :: _, [] => throw .badIndex
  | q :: qs, w :: ws => do
    let rest ← witnessLines qs ws
    return "-> state " ++ toString q ++ "\t" ++ w ++ " system states\n" ++ rest

def describe (r : Response) (elapsed : String) : Except Misuse String :=
  if r.holds then return "Property holds. Checked in " ++ elapsed
  else do
    let kind := if r.safety then "reachable" else "fair cycle"
    let lines ← witnessLines r.violating r.witnesses
    return "Property violated. Checked in " ++ elapsed ++ ". Accepting states (" ++ kind ++
      "): \n" ++ Text.columns 4 lines

end Response
end SymbolicLtl
