/-! Patterns for texts: stars, question marks and sets of characters. -/
namespace SymbolicLtl.Shell

inductive Member where
  | range (first last : Char)
  | family (name : String)
deriving DecidableEq, Repr

def Member.has (c : Char) : Member → Bool
  | range a b => a ≤ c && c ≤ b
  | family "alpha" => c.isAlpha
  | family "digit" => c.isDigit
  | family "alnum" => c.isAlphanum
  | family "upper" => c.isUpper
  | family "lower" => c.isLower
  | family "space" => [' ', '\t', '\n', '\r', '\x0b', '\x0c'].contains c
  | family "blank" => c == ' ' || c == '\t'
  | family "punct" => '!' ≤ c && c ≤ '~' && !c.isAlphanum
  | family "xdigit" => c.isDigit || ('a' ≤ c && c ≤ 'f') || ('A' ≤ c && c ≤ 'F')
  | family _ => false

inductive PatternPart where
  | char (c : Char)
  | anyChar
  | anyText
  | set (negated : Bool) (members : List Member)
deriving DecidableEq, Repr

/-- A character of a pattern, and whether it is quoted and so stands for itself. -/
abbrev PatternChar := Char × Bool

def family? (c : Char) (rest : List PatternChar) : Option String :=
  let name := ((rest.drop 1).map (·.1)).takeWhile Char.isAlpha
  if c = '[' && (rest.map (·.1)).take (name.length + 3) == ':' :: name ++ [':', ']']
  then some (String.ofList name) else none

/-- The number of characters up to the bracket that closes a set. The first of them is a member in
any case, and `skip` of them were read already. -/
def setLength : (skip : Nat) → (isFirst : Bool) → List PatternChar → Option Nat
  | _, _, [] => none
  | k + 1, _, _ :: rest => (setLength k false rest).map (· + 1)
  | 0, isFirst, (c, quoted) :: rest =>
    if c = ']' && !quoted && !isFirst then some 0
    else (setLength ((family? c rest).elim 0 (·.length + 3)) false rest).map (· + 1)

/-- The members of a set, the first `skip` characters of which were read already. -/
def members : (skip : Nat) → List PatternChar → List Member
  | _, [] => []
  | k + 1, _ :: rest => members k rest
  | 0, (c, _) :: rest =>
    match family? c rest, rest with
    | some name, _ => .family name :: members (name.length + 3) rest
    | none, ('-', false) :: (d, _) :: _ => .range c d :: members 2 rest
    | none, _ => .range c c :: members 0 rest

/-- The set behind an opening bracket, and the number of characters up to its end. -/
def readSet (cs : List PatternChar) : Option (PatternPart × Nat) :=
  let negated := match cs with
    | (c, false) :: _ => c == '!' || c == '^'
    | _ => false
  let body := cs.drop (if negated then 1 else 0)
  (setLength 0 true body).map fun k =>
    (.set negated (members 0 (body.take k)), k + if negated then 2 else 1)

/-- The parts of a pattern, the first `skip` characters of which were read already. -/
def readPattern : (skip : Nat) → List PatternChar → List PatternPart
  | _, [] => []
  | k + 1, _ :: rest => readPattern k rest
  | 0, (c, quoted) :: rest =>
    if quoted then .char c :: readPattern 0 rest
    else if c = '*' then .anyText :: readPattern 0 rest
    else if c = '?' then .anyChar :: readPattern 0 rest
    else match if c = '[' then readSet rest else none with
      | some (part, length) => part :: readPattern length rest
      | none => .char c :: readPattern 0 rest

/-- Some end of a text, or all of it, has a property. -/
def someEnd (p : List Char → Bool) : List Char → Bool
  | [] => p []
  | c :: rest => p (c :: rest) || someEnd p rest

def fits : List PatternPart → List Char → Bool
  | [], text => text.isEmpty
  | .anyText :: ps, text => someEnd (fits ps) text
  | _ :: _, [] => false
  | .char d :: ps, c :: rest => c == d && fits ps rest
  | .anyChar :: ps, _ :: rest => fits ps rest
  | .set negated ms :: ps, c :: rest => (ms.any (·.has c) != negated) && fits ps rest

/-- A text without the shortest or longest beginning that fits a pattern. -/
def withoutFront (longest : Bool) (ps : List PatternPart) (text : List Char) : List Char :=
  let lengths := List.range (text.length + 1)
  match (if longest then lengths.reverse else lengths).find? fun k => fits ps (text.take k) with
  | some k => text.drop k
  | none => text

/-- A text without the shortest or longest end that fits a pattern. -/
def withoutBack (longest : Bool) (ps : List PatternPart) (text : List Char) : List Char :=
  let lengths := List.range (text.length + 1)
  match (if longest then lengths else lengths.reverse).find? fun k => fits ps (text.drop k) with
  | some k => text.take k
  | none => text

end SymbolicLtl.Shell
