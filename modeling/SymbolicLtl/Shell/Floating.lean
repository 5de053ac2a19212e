import SymbolicLtl.Double
import SymbolicLtl.Shell.Number

/-!
Numbers with a point: read as the binary fraction of some precision next to them, and written in
fixed, exponential, short and binary notation.
-/
namespace SymbolicLtl.Shell

/-- The fractions that can be stored: the number of their bits, the least exponent, and the first
power of two that is too large. -/
structure Precision where
  bits : Nat
  least : Int
  limit : Nat

/-- The value of a number. Fractions are `num / den`. -/
inductive Magnitude where
  | fraction (num den : Nat)
  | infinite
  | undefined
deriving DecidableEq, Repr

structure Floating where
  negative : Bool := false
  magnitude : Magnitude := .fraction 0 1
deriving DecidableEq, Repr

/-- What was read: the number, whether the text ends with it, and whether it could be stored. -/
structure FloatingRead where
  number : Floating
  isWhole : Bool
  isInRange : Bool := true

namespace Precision

/-- The stored fraction next to a positive fraction, and whether it is within the bounds. -/
def store (p : Precision) (num den : Nat) : Magnitude × Bool :=
  let (m, e) := nearestBinary p.bits p.least num den
  let exact := if 0 ≤ e then (m * Nat.pow 2 e.toNat, 1) else (m, Nat.pow 2 (-e).toNat)
  if Nat.pow 2 p.limit * exact.2 ≤ exact.1 then (.infinite, false)
  else
    let isSmall := m < Nat.pow 2 (p.bits - 1)
    (.fraction exact.1 exact.2, !isSmall || exact.1 * den = num * exact.2)

end Precision

/-- Digits with a point between them: the digits, and how many of them are behind the point. -/
def takeFraction (base : Nat) (cs : List Char) : List Nat × Nat × List Char :=
  let whole := digits base cs.length cs
  match cs.drop whole.length with
  | '.' :: rest =>
    let part := digits base rest.length rest
    if whole.isEmpty && part.isEmpty then ([], 0, cs)
    else (whole ++ part, part.length, rest.drop part.length)
  | rest => (whole, 0, rest)

def takeExponent (small capital : Char) (cs : List Char) : Int × List Char :=
  match cs with
  | c :: rest =>
    let (sign, ds) := Text.takeSign rest
    let values := digits 10 ds.length ds
    if (c = small || c = capital) && !values.isEmpty
    then (sign * digitsValue 10 values, ds.drop values.length) else (0, cs)
  | [] => (0, cs)

def readFloating (p : Precision) (cs : List Char) : Option FloatingRead :=
  let (sign, cs) := Text.takeSign (cs.dropWhile Char.isWhitespace)
  let negative := decide (sign < 0)
  let lower := String.ofList ((cs.take 8).map Char.toLower)
  let named (m : Magnitude) (length : Nat) : Option FloatingRead :=
    some ⟨⟨negative, m⟩, cs.length = length, true⟩
  if lower = "infinity" then named .infinite 8
  else if lower.startsWith "inf" then named .infinite 3
  else if lower.startsWith "nan" then named .undefined 3
  else
    let isHex := match cs with
      | '0' :: x :: rest => (x == 'x' || x == 'X') && !(takeFraction 16 rest).1.isEmpty
      | _ => false
    let (ds, places, rest) := if isHex then takeFraction 16 (cs.drop 2) else takeFraction 10 cs
    let (e, rest) := if isHex then takeExponent 'p' 'P' rest else takeExponent 'e' 'E' rest
    let n := digitsValue (if isHex then 16 else 10) ds
    let base := if isHex then 2 else 10
    let e := clamp (-100000) 100000 e - (if isHex then 4 * places else places : Nat)
    let stored : Magnitude × Bool :=
      if n = 0 then (.fraction 0 1, true)
      else if 0 ≤ e then p.store (n * Nat.pow base e.toNat) 1
      else p.store n (Nat.pow base (-e).toNat)
    if ds.isEmpty then none else some ⟨⟨negative, stored.1⟩, rest.isEmpty, stored.2⟩

/-- A whole number with a point in front of its last places. -/
def withPoint (places : Nat) (always : Bool) (n : Nat) : String :=
  let ds := (Text.decimal n).toList
  let ds := List.replicate (places + 1 - ds.length) '0' ++ ds
  let whole := String.ofList (ds.take (ds.length - places))
  if places = 0 then whole ++ (if always then "." else "")
  else whole ++ "." ++ String.ofList (ds.drop (ds.length - places))

def fixedNotation (places : Nat) (always : Bool) (num den : Nat) : String :=
  withPoint places always (roundHalfEven (num * Nat.pow 10 places) den)

/-- The first `places + 1` digits of a fraction as a whole number, and the power of ten of the
first digit. -/
def leadingDigits (places num den : Nat) : Nat × Int :=
  if num = 0 then (0, 0)
  else
    let guess : Int := ((Text.decimal num).length : Int) - (Text.decimal den).length
    let isBelow : Bool := if 0 ≤ guess then num < den * Nat.pow 10 guess.toNat
      else num * Nat.pow 10 (-guess).toNat < den
    let x := if isBelow then guess - 1 else guess
    let shift := (places : Int) - x
    let n := if 0 ≤ shift then roundHalfEven (num * Nat.pow 10 shift.toNat) den
      else roundHalfEven num (den * Nat.pow 10 (-shift).toNat)
    if Nat.pow 10 (places + 1) ≤ n then (n / 10, x + 1) else (n, x)

/-- An exponent with its sign and a least number of digits. -/
def exponentText (width : Nat) (x : Int) : String :=
  let ds := Text.decimal x.natAbs
  (if x < 0 then "-" else "+") ++ String.ofList (List.replicate (width - ds.length) '0') ++ ds

/-- One digit in front of the point, and a power of ten. -/
def exponentialNotation (places : Nat) (always : Bool) (num den : Nat) : String :=
  let (n, x) := leadingDigits places num den
  withPoint places always n ++ "e" ++ exponentText 2 x

/-- The shorter of both notations, with a number of digits that count. Zeros at the end are left
out unless they are asked for. -/
def shortNotation (places : Nat) (zeros : Bool) (num den : Nat) : String :=
  let count := if places = 0 then 1 else places
  let (n, x) := leadingDigits (count - 1) num den
  let trimmed (text : String) : String :=
    if zeros || !text.contains '.' then text
    else
      let cs := (text.toList.reverse.dropWhile (· == '0')).reverse
      String.ofList (if cs.getLast? = some '.' then cs.dropLast else cs)
  if -4 ≤ x ∧ x < count then trimmed (fixedNotation ((count : Int) - 1 - x).toNat zeros num den)
  else trimmed (withPoint (count - 1) zeros n) ++ "e" ++ exponentText 2 x

/-- The digits of base 16 of a stored fraction, the first in front of the point, and a power of
two. -/
def binaryNotation (p : Precision) (places : Option Nat) (always : Bool) (num den : Nat) :
    String :=
  let (m, e) := if num = 0 then (0, 0) else nearestBinary p.bits p.least num den
  let behind := (p.bits - 1) / 4
  let m := if num = 0 then 0 else m
  let exponent : Int := if num = 0 then 0 else e + 4 * behind
  let kept := (places.getD behind)
  let n := if kept < behind then roundHalfEven m (Nat.pow 16 (behind - kept))
    else m * Nat.pow 16 (kept - behind)
  let isCarried : Bool := Nat.pow 16 (kept + 1) ≤ n
  let n := if isCarried then n / 16 else n
  let exponent := if isCarried then exponent + 4 else exponent
  let ds := Nat.toDigits 16 n
  let ds := List.replicate (kept + 1 - ds.length) '0' ++ ds
  let whole := ds.take (ds.length - kept)
  let part := ds.drop (ds.length - kept)
  let part := if places.isNone then (part.reverse.dropWhile (· == '0')).reverse else part
  "0x" ++ String.ofList whole ++ (if part.isEmpty && !always then "" else ".")
    ++ String.ofList part ++ "p" ++ exponentText 1 exponent

def Floating.write (p : Precision) (kind : Char) (places : Option Nat) (alternative : Bool)
    (x : Floating) : String :=
  let text := match x.magnitude with
    | .infinite => "inf"
    | .undefined => "nan"
    | .fraction num den =>
      match kind.toLower with
      | 'f' => fixedNotation (places.getD 6) alternative num den
      | 'e' => exponentialNotation (places.getD 6) alternative num den
      | 'g' => shortNotation (places.getD 6) alternative num den
      | _ => binaryNotation p places alternative num den
  if kind.isUpper then text.map Char.toUpper else text

end SymbolicLtl.Shell
