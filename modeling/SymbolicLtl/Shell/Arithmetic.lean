import SymbolicLtl.Word
import SymbolicLtl.Shell.Number
import SymbolicLtl.Shell.Word

/-! Numbers that are computed in scripts, in words of 64 bits. -/
namespace SymbolicLtl.Shell

namespace Arithmetic

inductive Symbol where
  | number (n : Int)
  | name (x : String)
  | operator (text : String)
  | unknown
deriving DecidableEq, Repr

/-- Operators, those first that begin with others. -/
def operators : List String := [
  "<<=", ">>=", "&&", "||", "<<", ">>", "<=", ">=", "==", "!=", "+=", "-=", "*=", "/=", "%=", "&=",
  "|=", "^=", "+", "-", "*", "/", "%", "<", ">", "=", "!", "~", "&", "|", "^", "?", ":", "(", ")"]

/-- The symbol at the front of a text, and its length. -/
def readSymbol (cs : List Char) : Symbol × Nat :=
  match cs with
  | [] => (.unknown, 0)
  | c :: _ =>
    if c.isDigit then
      let (base, ds) := announcedBase cs
      let ds := digits base ds.length ds
      (.number (clampSigned (digitsValue base ds)), ds.length + if base = 16 then 2 else 0)
    else if isNameChar c then
      let name := cs.takeWhile isNameChar
      (.name (String.ofList name), name.length)
    else match operators.find? (·.toList.isPrefixOf cs) with
      | some o => (.operator o, o.length)
      | none => (.unknown, 1)

/-- The symbols of a text, the first `skip` characters of which were read already. -/
def symbols : (skip : Nat) → List Char → List Symbol
  | _, [] => []
  | k + 1, _ :: rest => symbols k rest
  | 0, c :: rest =>
    if c = ' ' || c = '\t' || c = '\n' then symbols 0 rest
    else
      let (s, length) := readSymbol (c :: rest)
      s :: symbols (length - 1) rest

inductive Fault where
  | expected (what : String)
  | divisionByZero
  | notNumber (text : String)
deriving DecidableEq, Repr

def Fault.message (text : String) : Fault → String
  | expected what => "arithmetic expression: expecting " ++ what ++ ": \"" ++ text ++ "\""
  | divisionByZero => "arithmetic expression: division by zero: \"" ++ text ++ "\""
  | notNumber value => "Illegal number: " ++ value

/-- Symbols that are left, and variables that were given a value. -/
structure Progress where
  symbols : List Symbol
  assigned : List (String × Int) := []

abbrev Evaluation := StateT Progress (Except Fault)

def numberOf (text : String) : Except Fault Int :=
  match text.toList.dropWhile Char.isWhitespace with
  | [] => .ok 0
  | cs =>
    let (sign, number) := Text.takeSign cs
    let (base, ds) := announcedBase number
    let values := digits base ds.length ds
    let n := sign * digitsValue base values
    if values.isEmpty || !(ds.drop values.length).all Char.isWhitespace || clampSigned n ≠ n
    then .error (.notNumber text) else .ok n

/-- The value of two numbers under an operator. -/
def combine (operator : String) (a b : Int) : Except Fault Int :=
  let ofBool (b : Bool) : Except Fault Int := .ok (if b then 1 else 0)
  let bits (f : BitVec 64 → BitVec 64 → BitVec 64) : Except Fault Int :=
    .ok (f (BitVec.ofInt 64 a) (BitVec.ofInt 64 b)).toInt
  let shift := (b % 64).toNat
  match operator with
  | "*" => .ok (wordOf (a * b))
  | "/" => if b = 0 then .error .divisionByZero else .ok (wordOf (a.tdiv b))
  | "%" => if b = 0 then .error .divisionByZero else .ok (wordOf (a.tmod b))
  | "+" => .ok (wordOf (a + b))
  | "-" => .ok (wordOf (a - b))
  | "<<" => .ok (wordOf (a * Nat.pow 2 shift))
  | ">>" => .ok (a.fdiv (Nat.pow 2 shift))
  | "<" => ofBool (a < b)
  | "<=" => ofBool (a ≤ b)
  | ">" => ofBool (a > b)
  | ">=" => ofBool (a ≥ b)
  | "==" => ofBool (a == b)
  | "!=" => ofBool (a != b)
  | "&" => bits (· &&& ·)
  | "^" => bits (· ^^^ ·)
  | _ => bits (· ||| ·)

/-- Operators by how closely they bind, the closest first. -/
def levels : List (List String) := [
  ["*", "/", "%"], ["+", "-"], ["<<", ">>"], ["<", "<=", ">", ">="], ["==", "!="], ["&"], ["^"],
  ["|"]]

/-- The operator by which an assignment combines the old value with the new one. -/
def assignment? (text : String) : Option String :=
  if text = "=" then some ""
  else if ["<<=", ">>=", "+=", "-=", "*=", "/=", "%=", "&=", "|=", "^="].contains text
  then some (String.ofList text.toList.dropLast) else none

def peek : Evaluation (Option Symbol) := do return (← get).symbols.head?

def advance : Evaluation Unit := modify fun p => { p with symbols := p.symbols.drop 1 }

def lookup (value : String → String) (x : String) : Evaluation Int := do
  match (← get).assigned.lookup x with
  | some n => return n
  | none => numberOf (value x)

section
variable (value : String → String)

mutual

/-- An expression that may be an assignment. What is not `live` is read but has no effect. -/
def expression : (fuel : Nat) → (live : Bool) → Evaluation Int
  | 0, _ => throw (.expected "primary")
  | n + 1, live => do
    match (← get).symbols with
    | .name x :: .operator o :: _ =>
      match assignment? o with
      | some op =>
        advance
        advance
        let b ← expression n live
        if !live then return b
        let result ← if op = "" then pure b else combine op (← lookup value x) b
        modify fun p => { p with assigned := (x, result) :: p.assigned }
        return result
      | none => choice n live
    | _ => choice n live

def choice : (fuel : Nat) → (live : Bool) → Evaluation Int
  | 0, _ => throw (.expected "primary")
  | n + 1, live => do
    let a ← disjunction n live
    if (← peek) = some (.operator "?") then
      advance
      let b ← expression n (live && a ≠ 0)
      if (← peek) = some (.operator ":") then
        advance
        let c ← choice n (live && a = 0)
        return if a ≠ 0 then b else c
      else throw (.expected "':'")
    else return a

def disjunction : (fuel : Nat) → (live : Bool) → Evaluation Int
  | 0, _ => throw (.expected "primary")
  | n + 1, live => do
    let a ← conjunction n live
    if (← peek) = some (.operator "||") then
      advance
      let b ← disjunction n (live && a = 0)
      return if a ≠ 0 || b ≠ 0 then 1 else 0
    else return a

def conjunction : (fuel : Nat) → (live : Bool) → Evaluation Int
  | 0, _ => throw (.expected "primary")
  | n + 1, live => do
    let a ← binary n live levels.length
    if (← peek) = some (.operator "&&") then
      advance
      let b ← conjunction n (live && a ≠ 0)
      return if a ≠ 0 && b ≠ 0 then 1 else 0
    else return a

/-- Operators of the first `level` levels. -/
def binary : (fuel : Nat) → (live : Bool) → (level : Nat) → Evaluation Int
  | 0, _, _ => throw (.expected "primary")
  | n + 1, live, 0 => primary n live
  | n + 1, live, level + 1 => do binaryRest n live level (← binary n live level)

def binaryRest : (fuel : Nat) → (live : Bool) → (level : Nat) → Int → Evaluation Int
  | 0, _, _, a => return a
  | n + 1, live, level, a => do
    match ← peek with
    | some (.operator o) =>
      if (levels[level]?.getD []).contains o then
        advance
        let b ← binary n live level
        binaryRest n live level (← if live then combine o a b else pure b)
      else return a
    | _ => return a

def primary : (fuel : Nat) → (live : Bool) → Evaluation Int
  | 0, _ => throw (.expected "primary")
  | n + 1, live => do
    match ← peek with
    | some (.number k) =>
      advance
      return k
    | some (.name x) =>
      advance
      if live then lookup value x else return 0
    | some (.operator "(") =>
      advance
      let k ← expression n live
      if (← peek) = some (.operator ")") then
        advance
        return k
      else throw (.expected "')'")
    | some (.operator "+") =>
      advance
      primary n live
    | some (.operator "-") =>
      advance
      return wordOf (-(← primary n live))
    | some (.operator "!") =>
      advance
      return if (← primary n live) = 0 then 1 else 0
    | some (.operator "~") =>
      advance
      return -(← primary n live) - 1
    | _ => throw (.expected "primary")

end
end

/-- The value of a text, and the variables that it changes, the last change first. -/
def evaluate (value : String → String) (text : List Char) :
    Except Fault (Int × List (String × Int)) := do
  let ss := symbols 0 text
  let (n, p) ← (expression value (32 * ss.length + 32) true).run { symbols := ss }
  if p.symbols.isEmpty then return (n, p.assigned) else throw (.expected "EOF")

end Arithmetic
end SymbolicLtl.Shell
