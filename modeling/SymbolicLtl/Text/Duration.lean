import SymbolicLtl.Double

/-! Time spans: their written form in the largest units that they fill, and the reading of a sum of
spans in any units. -/
namespace SymbolicLtl.Text

/-- The last `digits` decimal digits of `n` behind a point, without the zeros at their end. -/
def fraction (digits n : Nat) : String :=
  let padded := List.replicate digits '0' ++ Nat.toDigits 10 n
  let last := padded.drop (padded.length - digits)
  match (last.reverse.dropWhile (· == '0')).reverse with
  | [] => ""
  | ds => String.ofList ('.' :: ds)

def inUnits (digits n : Nat) (unit : String) : String :=
  toString (n / Nat.pow 10 digits) ++ fraction digits (n % Nat.pow 10 digits) ++ unit

/-- A span of nanoseconds. Below a second there is one unit; minutes and hours go before the
seconds. -/
def spanText (n : Nat) : String :=
  if n = 0 then "0s"
  else if n < 1000 then inUnits 0 n "ns"
  else if n < 1000000 then inUnits 3 n "µs"
  else if n < 1000000000 then inUnits 6 n "ms"
  else
    let second := 1000000000
    let seconds := inUnits 9 (n % (60 * second)) "s"
    let minutes := n / (60 * second)
    if minutes = 0 then seconds
    else if minutes < 60 then toString minutes ++ "m" ++ seconds
    else toString (minutes / 60) ++ "h" ++ toString (minutes % 60) ++ "m" ++ seconds

def duration (ns : Int) : String :=
  if ns < 0 then "-" ++ spanText ns.natAbs else spanText ns.natAbs

def unitSpan (unit : String) : Option Nat :=
  [("ns", 1), ("us", 1000), ("\u00b5s", 1000), ("\u03bcs", 1000), ("ms", 1000000),
    ("s", 1000000000), ("m", 60000000000), ("h", 3600000000000)].lookup unit

def isDecimalDigit (c : Char) : Bool := '0' ≤ c && c ≤ '9'

def isUnitChar (c : Char) : Bool := !(isDecimalDigit c || c == '.')

def decimalValue (digits : List Char) : Nat :=
  digits.foldl (fun acc c => 10 * acc + (c.toNat - '0'.toNat)) 0

def takePlaces : List Char → List Char × List Char
  | '.' :: rest => (rest.takeWhile isDecimalDigit, rest.dropWhile isDecimalDigit)
  | cs => ([], cs)

theorem length_takePlaces (cs : List Char) : (takePlaces cs).2.length ≤ cs.length := by
  unfold takePlaces
  split
  · exact Nat.le_succ_of_le (List.dropWhile_sublist _).length_le
  · exact Nat.le_refl _

theorem length_dropWhile_lt {p : Char → Bool} {cs : List Char} (h : cs.takeWhile p ≠ []) :
    (cs.dropWhile p).length < cs.length := by
  have hs := congrArg List.length (List.takeWhile_append_dropWhile (p := p) (l := cs))
  have hp := List.length_pos_iff.mpr h
  simp only [List.length_append] at hs
  omega

/-- The largest number of nanoseconds of a span, whatever its sign. -/
def spanLimit : Nat := 9223372036854775808

/-- The digits behind a point as a number and the power of ten to divide it by, as long as the
number stays in the limit of spans; digits behind them do not count. -/
def readPlaces : (number : Nat) → (scale : Double) → List Char → Nat × Double
  | number, scale, [] => (number, scale)
  | number, scale, c :: rest =>
    let next := 10 * number + (c.toNat - '0'.toNat)
    if spanLimit < next then (number, scale) else readPlaces next (scale.mul (.ofNat 10)) rest

/-- The nanoseconds of a number of units with places behind the point, if they are in the limit of
spans. The places are computed with doubles. -/
def spanOf (span : Nat) (whole places : List Char) : Option Nat :=
  let units := decimalValue whole
  if spanLimit / span < units then none
  else
    let (number, scale) := readPlaces 0 (.ofNat 1) places
    let rest := ((Double.ofNat number).mul ((Double.ofNat span).div scale)).truncate.toNat
    if spanLimit < units * span + rest then none else some (units * span + rest)

/-- Reads spans and adds them to `total`, which is kept in 64 bits and must not exceed the limit of
spans. -/
def readSpans (total : Nat) (cs : List Char) : Option Nat :=
  match cs with
  | [] => some total
  | c :: more =>
    let whole := (c :: more).takeWhile isDecimalDigit
    let places := takePlaces ((c :: more).dropWhile isDecimalDigit)
    let unit := places.2.takeWhile isUnitChar
    if _h : unit = [] then none
    else if whole.isEmpty && places.1.isEmpty then none
    else
      match (unitSpan (String.ofList unit)).bind (spanOf · whole places.1) with
      | none => none
      | some v =>
        let sum := (total + v) % 18446744073709551616
        if spanLimit < sum then none else readSpans sum (places.2.dropWhile isUnitChar)
termination_by cs.length
decreasing_by
  have h₂ : ((c :: more).dropWhile isDecimalDigit).length ≤ (c :: more).length :=
    (List.dropWhile_sublist _).length_le
  exact Nat.lt_of_lt_of_le (length_dropWhile_lt _h) (Nat.le_trans (length_takePlaces _) h₂)

/-- Reads a duration as nanoseconds. Zero needs no unit. -/
def readDuration (text : String) : Option Int :=
  let (isNegative, cs) := match text.toList with
    | '-' :: rest => (true, rest)
    | '+' :: rest => (false, rest)
    | cs => (false, cs)
  if cs = ['0'] then some 0
  else if cs = [] then none
  else do
    let n ← readSpans 0 cs
    if isNegative then return -(n : Int)
    else if n < spanLimit then return n else none

end SymbolicLtl.Text
