import SymbolicLtl.Json.Value
import SymbolicLtl.Text.Beginning

/-!
Reading values from text. A text is read up to the end of its first value, and what follows is not
looked at.
-/
namespace SymbolicLtl.JsonValue

/-- Something read from the front of a text of the given length, and the text behind it. -/
structure Taken (α : Type) (bound : Nat) where
  value : α
  rest : List Char
  shorter : rest.length < bound

def isBlank (c : Char) : Bool := c == ' ' || c == '\t' || c == '\r' || c == '\n'

/-- The first character that is not blank. -/
def takeChar (cs : List Char) : Option (Taken Char cs.length) :=
  match cs with
  | [] => none
  | c :: rest =>
    if isBlank c then (takeChar rest).map fun ⟨d, rest', h⟩ => ⟨d, rest', by simp; omega⟩
    else some ⟨c, rest, by simp⟩

def hexDigit (c : Char) : Option Nat :=
  if '0' ≤ c ∧ c ≤ '9' then some (c.toNat - '0'.toNat)
  else if 'a' ≤ c ∧ c ≤ 'f' then some (c.toNat - 'a'.toNat + 10)
  else if 'A' ≤ c ∧ c ≤ 'F' then some (c.toNat - 'A'.toNat + 10)
  else none

def hexUnit (a b c d : Char) : Option Nat := do
  return (((← hexDigit a) * 16 + (← hexDigit b)) * 16 + (← hexDigit c)) * 16 + (← hexDigit d)

def escaped : Char → Option Char
  | '"' => some '"'
  | '\\' => some '\\'
  | '/' => some '/'
  | 'b' => some '\x08'
  | 'f' => some '\x0c'
  | 'n' => some '\n'
  | 'r' => some '\r'
  | 't' => some '\t'
  | _ => none

/-- The code units of a string whose opening quote has been read, and the text behind its closing
quote. Control characters must be escaped. -/
def stringUnits : List Char → Option (List Nat × List Char)
  | [] => none
  | '"' :: rest => some ([], rest)
  | '\\' :: 'u' :: a :: b :: c :: d :: rest => do
    let u ← hexUnit a b c d
    let (units, rest) ← stringUnits rest
    return (u :: units, rest)
  | '\\' :: e :: rest => do
    let c ← escaped e
    let (units, rest) ← stringUnits rest
    return (c.toNat :: units, rest)
  | c :: rest =>
    if c.toNat < 0x20 || c == '\\' then none
    else do
      let (units, rest) ← stringUnits rest
      return (c.toNat :: units, rest)

def isHighSurrogate (u : Nat) : Bool := 0xD800 ≤ u && u < 0xDC00

def isLowSurrogate (u : Nat) : Bool := 0xDC00 ≤ u && u < 0xE000

/-- The character of a code unit; half of a pair stands for no character and is replaced. -/
def unitChar (u : Nat) : Char :=
  if isHighSurrogate u || isLowSurrogate u then '\ufffd' else Char.ofNat u

/-- The characters of code units, where pairs of surrogates are one character. -/
def unitChars : List Nat → List Char
  | [] => []
  | [u] => [unitChar u]
  | u :: v :: rest =>
    if isHighSurrogate u && isLowSurrogate v then
      Char.ofNat (0x10000 + (u - 0xD800) * 0x400 + (v - 0xDC00)) :: unitChars rest
    else unitChar u :: unitChars (v :: rest)

theorem length_stringUnits {cs : List Char} {units : List Nat} {rest : List Char}
    (h : stringUnits cs = some (units, rest)) : rest.length < cs.length := by
  fun_induction stringUnits cs generalizing units rest with
  | case1 => cases h
  | case2 => cases h; simp
  | case3 a b c d r ih =>
    simp only [Option.bind_eq_bind, Option.bind_eq_some_iff] at h
    obtain ⟨_, _, ⟨units', rest'⟩, h', h⟩ := h
    cases h
    have := ih h'
    simp
    omega
  | case4 e r _ ih =>
    simp only [Option.bind_eq_bind, Option.bind_eq_some_iff] at h
    obtain ⟨_, _, ⟨units', rest'⟩, h', h⟩ := h
    cases h
    have := ih h'
    simp
    omega
  | case5 => cases h
  | case6 c r _ _ _ _ ih =>
    simp only [Option.bind_eq_bind, Option.bind_eq_some_iff] at h
    obtain ⟨⟨units', rest'⟩, h', h⟩ := h
    cases h
    have := ih h'
    simp
    omega

def takeString (cs : List Char) : Option (Taken String cs.length) :=
  match h : stringUnits cs with
  | some (units, rest) => some ⟨String.ofList (unitChars units), rest, length_stringUnits h⟩
  | none => none

def digitsValue (digits : List Char) : Nat :=
  digits.foldl (fun acc c => 10 * acc + (c.toNat - '0'.toNat)) 0

def fraction : List Char → Option (List Char × List Char)
  | '.' :: rest =>
    match rest.takeWhile Char.isDigit with
    | [] => none
    | digits => some (digits, rest.dropWhile Char.isDigit)
  | cs => some ([], cs)

/-- The power of ten of a number; it has at least one digit. -/
def power (cs : List Char) : Option (Int × List Char) :=
  match cs with
  | c :: rest =>
    if c == 'e' || c == 'E' then
      let (sign, rest) : Int × List Char := match rest with
        | '-' :: rest => (-1, rest)
        | '+' :: rest => (1, rest)
        | rest => (1, rest)
      match rest.takeWhile Char.isDigit with
      | [] => none
      | digits => some (sign * digitsValue digits, rest.dropWhile Char.isDigit)
    else some (0, cs)
  | [] => some (0, cs)

/-- The digits in front of the point. A number does not begin with zero, except zero itself. -/
def wholePart : List Char → Option (List Char × List Char)
  | '0' :: rest => some (['0'], rest)
  | cs =>
    match cs.takeWhile Char.isDigit with
    | [] => none
    | digits => some (digits, cs.dropWhile Char.isDigit)

def takeNumber (cs : List Char) : Option (Decimal × List Char) := do
  let (sign, rest) : Int × List Char := match cs with
    | '-' :: rest => (-1, rest)
    | rest => (1, rest)
  let (whole, rest) ← wholePart rest
  let (places, rest) ← fraction rest
  let (exponent, rest) ← power rest
  return (⟨sign * digitsValue (whole ++ places), exponent - places.length⟩, rest)

/-- A value that holds no other values. -/
def takeScalar (cs : List Char) : Option (JsonValue × List Char) :=
  match cs with
  | 'n' :: _ => (Text.after "null".toList cs).map (null, ·)
  | 't' :: _ => (Text.after "true".toList cs).map (bool true, ·)
  | 'f' :: _ => (Text.after "false".toList cs).map (bool false, ·)
  | _ => (takeNumber cs).map fun (x, rest) => (number x, rest)

def takeShorter (cs : List Char) : Option (Taken JsonValue cs.length) := do
  let (v, rest) ← takeScalar cs
  if h : rest.length < cs.length then some ⟨v, rest, h⟩ else none

mutual

/-- A value in which arrays and objects are nested no deeper than `depth`. -/
def takeValue (depth : Nat) (cs : List Char) : Option (Taken JsonValue cs.length) := do
  let ⟨c, rest, h⟩ ← takeChar cs
  if c = '"' then
    let ⟨s, rest', h'⟩ ← takeString rest
    return ⟨string s, rest', by omega⟩
  else if c = '[' then
    let depth + 1 := depth | none
    let ⟨d, rest', h'⟩ ← takeChar rest
    if d = ']' then return ⟨array [], rest', by omega⟩
    let ⟨items, rest', h'⟩ ← takeItems depth rest
    return ⟨array items, rest', by omega⟩
  else if c = '\x7b' then
    let depth + 1 := depth | none
    let ⟨d, rest', h'⟩ ← takeChar rest
    if d = '\x7d' then return ⟨object [], rest', by omega⟩
    let ⟨members, rest', h'⟩ ← takeMembers depth rest
    return ⟨object members, rest', by omega⟩
  else
    let ⟨v, rest', h'⟩ ← takeShorter (c :: rest)
    return ⟨v, rest', by simp at h'; omega⟩
termination_by (cs.length, 0)

def takeItems (depth : Nat) (cs : List Char) : Option (Taken (List JsonValue) cs.length) := do
  let ⟨v, rest, h⟩ ← takeValue depth cs
  let ⟨c, rest', h'⟩ ← takeChar rest
  if c = ']' then return ⟨[v], rest', by omega⟩
  else if c = ',' then
    let ⟨items, rest'', h''⟩ ← takeItems depth rest'
    return ⟨v :: items, rest'', by omega⟩
  else none
termination_by (cs.length, 1)

def takeMembers (depth : Nat) (cs : List Char) :
    Option (Taken (List (String × JsonValue)) cs.length) := do
  let ⟨quote, rest, h₁⟩ ← takeChar cs
  if quote ≠ '"' then none
  let ⟨name, rest, h₂⟩ ← takeString rest
  let ⟨colon, rest, h₃⟩ ← takeChar rest
  if colon ≠ ':' then none
  let ⟨v, rest, h₄⟩ ← takeValue depth rest
  let ⟨c, rest, h₅⟩ ← takeChar rest
  if c = '\x7d' then return ⟨[(name, v)], rest, by omega⟩
  else if c = ',' then
    let ⟨members, rest, h₆⟩ ← takeMembers depth rest
    return ⟨(name, v) :: members, rest, by omega⟩
  else none
termination_by (cs.length, 1)

end

/-- The number of arrays and objects that may be open at the same time. -/
def maxDepth : Nat := 10000

def parse? (text : String) : Option JsonValue := (takeValue maxDepth text.toList).map (·.value)

end SymbolicLtl.JsonValue
