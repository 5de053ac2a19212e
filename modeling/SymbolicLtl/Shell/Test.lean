/-! Questions about words: comparisons, and how they are joined. -/
namespace SymbolicLtl.Shell

/-- Why a question about words has no answer. -/
inductive TestError where
  /-- No question about one word has this name. -/
  | unary (operator word : String)
  /-- No question about two words has this name. -/
  | binary (first operator : String)
  | notNumber (text : String)
  | tooLong (first last : String)
  | missing (operator : String)
  | unclosed
deriving DecidableEq, Repr

namespace TestError

def message : TestError → String
  | unary a _ | binary a _ | tooLong a _ => a ++ ": unexpected operator"
  | notNumber text => "Illegal number: " ++ text
  | missing a => a ++ ": argument expected"
  | unclosed => "closing paren expected"

/-- What the program says, given how it shows words. -/
def programMessage (shown : String → String) : TestError → String
  | unary _ a => "missing argument after " ++ shown a
  | binary _ a => shown a ++ ": binary operator expected"
  | notNumber text => "invalid integer " ++ shown text
  | tooLong _ a => "extra argument " ++ shown a
  | missing a => "missing argument after " ++ shown a
  | unclosed => "')' expected"

end TestError

/-- What stands at a path. -/
inductive PathKind where
  | file (isEmpty : Bool)
  | folder
  | device
deriving DecidableEq, Repr

def unaryTests : List String := [
  "-n", "-z", "-e", "-d", "-r", "-w", "-x", "-s", "-f", "-L", "-h", "-p", "-S", "-b", "-c", "-t",
  "-u", "-g", "-k", "-O", "-G"]

def binaryTests : List String := [
  "=", "!=", "<", ">", "-eq", "-ne", "-lt", "-le", "-gt", "-ge", "-nt", "-ot", "-ef"]

section
variable (kind : String → Option PathKind)

def testOne (operator a : String) : Bool :=
  match operator, kind a with
  | "-n", _ => a ≠ ""
  | "-z", _ => a = ""
  | "-e", some _ | "-r", some _ | "-w", some _ => true
  | "-d", some .folder | "-x", some .folder | "-s", some .folder => true
  | "-f", some (.file _) => true
  | "-s", some (.file isEmpty) => !isEmpty
  | "-c", some .device => true
  | _, _ => false

def testTwo (operator a b : String) : Except TestError Bool :=
  let number (text : String) : Except TestError Int :=
    let trimmed := (text.toList.dropWhile Char.isWhitespace).reverse.dropWhile Char.isWhitespace
    match (String.ofList trimmed.reverse).toInt? with
    | some n => .ok n
    | none => .error (.notNumber text)
  let compare (holds : Int → Int → Bool) : Except TestError Bool := do
    return holds (← number a) (← number b)
  match operator with
  | "=" => .ok (a = b)
  | "!=" => .ok (a ≠ b)
  | "<" => .ok (a < b)
  | ">" => .ok (b < a)
  | "-eq" => compare (· == ·)
  | "-ne" => compare (· != ·)
  | "-lt" => compare (· < ·)
  | "-le" => compare (· ≤ ·)
  | "-gt" => compare (· > ·)
  | "-ge" => compare (· ≥ ·)
  | _ => .ok false

mutual

/-- Questions of which one must hold; the answer and the words behind them. -/
def testAny : (fuel : Nat) → List String → Except TestError (Bool × List String)
  | 0, ws => .ok (false, ws)
  | n + 1, ws => do
    let (a, rest) ← testAll n ws
    match rest with
    | "-o" :: rest =>
      let (b, rest) ← testAny n rest
      return (a || b, rest)
    | rest => return (a, rest)

/-- Questions that must all hold. -/
def testAll : (fuel : Nat) → List String → Except TestError (Bool × List String)
  | 0, ws => .ok (false, ws)
  | n + 1, ws => do
    let (a, rest) ← testSingle n ws
    match rest with
    | "-a" :: rest =>
      let (b, rest) ← testAll n rest
      return (a && b, rest)
    | rest => return (a, rest)

def testSingle : (fuel : Nat) → List String → Except TestError (Bool × List String)
  | 0, ws => .ok (false, ws)
  | _ + 1, [] => .ok (false, [])
  | n + 1, a :: rest => do
    match rest with
    | op :: b :: more =>
      if binaryTests.contains op then return (← testTwo op a b, more)
    | _ => pure ()
    if a = "!" && !rest.isEmpty then
      let (answer, rest) ← testSingle n rest
      return (!answer, rest)
    else if a = "(" && !rest.isEmpty then
      match ← testAny n rest with
      | (answer, ")" :: rest) => return (answer, rest)
      | _ => throw .unclosed
    else match rest with
      | b :: more => if unaryTests.contains a then return (testOne kind a b, more) else return (a ≠ "", rest)
      | [] => return (a ≠ "", [])

end

def test : List String → Except TestError Bool
  | [] => .ok false
  | [a] => .ok (a ≠ "")
  | ["!", a] => .ok (a = "")
  | [op, a] =>
    if unaryTests.contains op then .ok (testOne kind op a)
    else if binaryTests.contains a then .error (.missing a)
    else .error (.unary op a)
  | [a, op, b] =>
    if binaryTests.contains op then testTwo op a b
    else if op = "-a" then .ok (a ≠ "" && b ≠ "")
    else if op = "-o" then .ok (a ≠ "" || b ≠ "")
    else if a = "!" then (test [op, b]).map (!·)
    else if a = "(" && b = ")" then .ok (op ≠ "")
    else .error (.binary a op)
  | ["!", a, b, c] => (test [a, b, c]).map (!·)
  | a :: rest => do
    match ← testAny kind (8 * rest.length + 16) (a :: rest) with
    | (answer, []) => return answer
    | (_, w :: more) => throw (.tooLong w ((w :: more).getLastD w))

end
end SymbolicLtl.Shell
