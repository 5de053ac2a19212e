import SymbolicLtl.Text.Integer

/-! Whole numbers as scripts and their commands read them. -/
namespace SymbolicLtl.Shell

/-- The digits of a base at the front of a text, at most `limit` of them. -/
def digits (base limit : Nat) (cs : List Char) : List Nat :=
  ((cs.take limit).map fun c => (Text.digitValue c).getD base).takeWhile (· < base)

def digitsValue (base : Nat) (ds : List Nat) : Nat := ds.foldl (fun n d => base * n + d) 0

/-- The base that a number announces, and the digits behind the announcement. -/
def announcedBase (cs : List Char) : Nat × List Char :=
  match cs with
  | '0' :: x :: d :: rest =>
    if (x = 'x' || x = 'X') && (digits 16 1 [d]).length = 1 then (16, d :: rest) else (8, cs)
  | '0' :: _ => (8, cs)
  | _ => (10, cs)

def clamp (least greatest n : Int) : Int :=
  if n < least then least else if greatest < n then greatest else n

/-- The number of 64 bits with a sign that is next to a number. -/
def clampSigned (n : Int) : Int := clamp (-9223372036854775808) 9223372036854775807 n

end SymbolicLtl.Shell
