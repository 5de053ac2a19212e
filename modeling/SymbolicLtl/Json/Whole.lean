import SymbolicLtl.Double
import SymbolicLtl.Json.Fields

/-!
Whole numbers on the wire. A number there is a double; it is a whole number when its shortest decimal
is one, and then it is the number that this decimal denotes.
-/
namespace SymbolicLtl
namespace Double

def ofDecimal (x : Decimal) : Double :=
  if 0 ≤ x.exponent then
    ofRatio x.mantissa.sign (x.mantissa.natAbs * Nat.pow 10 x.exponent.toNat) 1
  else ofRatio x.mantissa.sign x.mantissa.natAbs (Nat.pow 10 (-x.exponent).toNat)

/-- The multiple of `10 ^ k` that reads back as the whole double `v`; of two the one next to `v`. -/
def roundTo (v k : Nat) : Option Nat :=
  let e := v.log2 - 52
  let unit := Nat.pow 2 e
  let m := v / unit
  let lo := 4 * v - if m = Nat.pow 2 52 then unit else 2 * unit
  let hi := 4 * v + 2 * unit
  let readsBack (c : Nat) : Bool := if m % 2 = 0 then lo ≤ 4 * c && 4 * c ≤ hi
    else lo < 4 * c && 4 * c < hi
  let grid := Nat.pow 10 k
  let near := roundHalfEven v grid * grid
  let far := if near ≤ v then near + grid else near - grid
  [near, far].find? readsBack

/-- The roundest number that reads back as a whole double. Up to `2 ^ 53` that is the double. -/
def shortestWhole (v : Nat) : Nat :=
  if v ≤ Nat.pow 2 53 then v
  else ((List.range 20).reverse.findSome? (roundTo v)).getD v

end Double

namespace Decimal

/-- The whole number of 64 bits that a number stands for. -/
def whole? (x : Decimal) : Option Int :=
  let d := Double.ofDecimal x
  if d.isWhole then
    let n := d.truncate.sign * Double.shortestWhole d.truncate.natAbs
    if -9223372036854775808 ≤ n ∧ n ≤ 9223372036854775807 then some n else none
  else none

end Decimal

namespace JsonValue

def readInt : JsonValue → Except DecodeError (Option Int)
  | number x => match x.whole? with
    | some n => .ok (some n)
    | none => .error .mistyped
  | null => .ok none
  | _ => .error .mistyped

def sortMembers : JsonValue → JsonValue
  | object members => object (members.mergeSort fun a b => decide (a.1 ≤ b.1))
  | v => v

end JsonValue
end SymbolicLtl
