import SymbolicLtl.Text.Quoted

/-! Whole numbers as they are written, and numbers of 64 bits as they are read in arguments. -/
namespace SymbolicLtl.Text

/-- The last `2 ^ k` decimal digits of a number. Its halves are written apart, which takes few
divisions of long numbers. -/
def lastDigits : (k : Nat) → Nat → List Char
  | 0, n => [Nat.digitChar (n % 10)]
  | k + 1, n =>
    let half := Nat.pow 10 (Nat.pow 2 k)
    lastDigits k (n / half) ++ lastDigits k (n % half)

/-- A number in decimal notation. It has fewer decimal digits than binary ones. -/
def decimal (n : Nat) : String :=
  match (lastDigits (Nat.log2 (Nat.log2 n + 1) + 1) n).dropWhile (· == '0') with
  | [] => "0"
  | digits => String.ofList digits

inductive IntegerError where
  | malformed
  | outOfRange
deriving DecidableEq, Repr

def IntegerError.message : IntegerError → String
  | malformed => "invalid syntax"
  | outOfRange => "value out of range"

def digitValue (c : Char) : Option Nat :=
  if '0' ≤ c ∧ c ≤ '9' then some (c.toNat - '0'.toNat)
  else if 'a' ≤ c ∧ c ≤ 'z' then some (c.toNat - 'a'.toNat + 10)
  else if 'A' ≤ c ∧ c ≤ 'Z' then some (c.toNat - 'A'.toNat + 10)
  else none

/-- Reads digits behind the number `n`. What comes first counts: a character that is no digit, or
a number of more than 64 bits. -/
def readDigits (base : Nat) (n : Nat) : List Char → Except IntegerError Nat
  | [] => .ok n
  | c :: rest =>
    match digitValue c with
    | none => .error .malformed
    | some d =>
      if base ≤ d then .error .malformed
      else if 18446744073709551615 < n * base + d then .error .outOfRange
      else readDigits base (n * base + d) rest

def takeSign : List Char → Int × List Char
  | '-' :: rest => (-1, rest)
  | '+' :: rest => (1, rest)
  | cs => (1, cs)

def signed (sign : Int) (n : Nat) : Except IntegerError Int :=
  if -9223372036854775808 ≤ sign * n ∧ sign * n ≤ 9223372036854775807 then .ok (sign * n)
  else .error .outOfRange

def readDecimal (text : String) : Except IntegerError Int := do
  let (sign, digits) := takeSign text.toList
  if digits.isEmpty then throw .malformed
  signed sign (← readDigits 10 0 digits)

/-- The base that a number announces, and its digits. -/
def takeBase : List Char → Nat × List Char
  | '0' :: c :: d :: rest =>
    if c == 'b' || c == 'B' then (2, d :: rest)
    else if c == 'o' || c == 'O' then (8, d :: rest)
    else if c == 'x' || c == 'X' then (16, d :: rest)
    else (8, c :: d :: rest)
  | '0' :: rest => (8, rest)
  | cs => (10, cs)

/-- Underscores stand between digits; `separable` tells whether one may come next. -/
def underscoresFit (separable : Bool) : List Char → Bool
  | [] => true
  | ['_'] => false
  | '_' :: c :: rest => separable && c != '_' && underscoresFit true rest
  | _ :: rest => underscoresFit true rest

/-- A number with an optional sign in the notation of program texts: a prefix gives the base, and
underscores may stand between digits. -/
def readInteger (text : String) : Except IntegerError Int := do
  let (sign, number) := takeSign text.toList
  if number.isEmpty then throw .malformed
  let (base, digits) := takeBase number
  let n ← readDigits base 0 (digits.filter (· != '_'))
  if digits.contains '_' && !underscoresFit (base != 10) digits then throw .malformed
  signed sign n

def readBool (text : String) : Option Bool :=
  if ["1", "t", "T", "TRUE", "true", "True"].contains text then some true
  else if ["0", "f", "F", "FALSE", "false", "False"].contains text then some false
  else none

end SymbolicLtl.Text
