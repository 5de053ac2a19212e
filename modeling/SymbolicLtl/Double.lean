/-!
Binary fractions of 53 bits. Every operation gives the fraction next to the exact result, and of two
the one whose last bit is zero.
-/
namespace SymbolicLtl

/-- The number `mantissa * 2 ^ exponent`. -/
structure Double where
  mantissa : Int
  exponent : Int
deriving DecidableEq, Repr

/-- The whole number next to a fraction; of two the even one. -/
def roundHalfEven (num den : Nat) : Nat :=
  let q := num / den
  let r := num % den
  if den < 2 * r ∨ (2 * r = den ∧ q % 2 = 1) then q + 1 else q

/-- The binary fraction next to the positive fraction `num / den`, as mantissa and exponent. The
mantissa has the given number of bits as long as the exponent is not the least one. -/
def nearestBinary (bits : Nat) (least : Int) (num den : Nat) : Nat × Int :=
  let guess : Int := (num.log2 : Int) - den.log2
  let isBelow : Bool := if 0 ≤ guess then num < den * Nat.pow 2 guess.toNat
    else num * Nat.pow 2 (-guess).toNat < den
  let log := if isBelow then guess - 1 else guess
  let last := log - ((bits : Int) - 1)
  let e := if last < least then least else last
  (if 0 ≤ e then roundHalfEven num (den * Nat.pow 2 e.toNat)
    else roundHalfEven (num * Nat.pow 2 (-e).toNat) den, e)

namespace Double

/-- The double next to a positive fraction, as mantissa and exponent. -/
def nearest (num den : Nat) : Nat × Int := nearestBinary 53 (-1074) num den

/-- The double next to a fraction with a sign. -/
def ofRatio (sign : Int) (num den : Nat) : Double :=
  if num = 0 then ⟨0, 0⟩
  else
    let (m, e) := nearest num den
    ⟨sign * m, e⟩

def ofNat (n : Nat) : Double := ofRatio 1 n 1

def ratio (x : Double) : Nat × Nat :=
  if 0 ≤ x.exponent then (x.mantissa.natAbs * Nat.pow 2 x.exponent.toNat, 1)
  else (x.mantissa.natAbs, Nat.pow 2 (-x.exponent).toNat)

def mul (x y : Double) : Double :=
  ofRatio (x.mantissa.sign * y.mantissa.sign) (x.ratio.1 * y.ratio.1) (x.ratio.2 * y.ratio.2)

def div (x y : Double) : Double :=
  ofRatio (x.mantissa.sign * y.mantissa.sign) (x.ratio.1 * y.ratio.2) (x.ratio.2 * y.ratio.1)

def truncate (x : Double) : Int := x.mantissa.sign * (x.ratio.1 / x.ratio.2 : Nat)

def isWhole (x : Double) : Bool := x.ratio.1 % x.ratio.2 == 0

end Double
end SymbolicLtl
