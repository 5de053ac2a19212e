import SymbolicLtl.Automaton.Basic
import SymbolicLtl.Formula.Scope
import SymbolicLtl.Text.Beginning

/-!
Never claims: the text form in which translators of temporal formulas write automata. A claim is a
list of labelled states; a state lists guarded jumps to states, or loops forever.
-/
namespace SymbolicLtl

inductive ClaimError where
  | missingBlock
  | duplicateState (name : String)
  | noState
  | outsideState (line : String)
  | badOption (line : String)
  | unknownState (name : String)
  | badGuard (guard : String) (error : FormulaError)
  | unexpectedLine (line : String)
deriving DecidableEq, Repr

namespace ClaimError

def reason : ClaimError → String
  | missingBlock => "missing never \x7b ... \x7d block"
  | duplicateState name => "state " ++ name ++ " declared twice"
  | noState => "no state"
  | outsideState line => Text.quote line ++ " outside of a state"
  | badOption line => "unexpected option " ++ Text.quote line
  | unknownState name => "unknown state " ++ name
  | badGuard guard e => "guard " ++ Text.quote guard ++ ": " ++ e.message
  | unexpectedLine line => "unexpected line " ++ Text.quote line

def message (e : ClaimError) : String := "automata: malformed never claim: " ++ e.reason

end ClaimError

namespace NeverClaim

/-- What follows the end of the comment that a text is in, if the comment ends. -/
def afterComment : List Char → Option (List Char)
  | [] => none
  | '*' :: '/' :: rest => some rest
  | _ :: rest => afterComment rest

theorem length_afterComment {cs rest : List Char} (h : afterComment cs = some rest) :
    rest.length < cs.length := by
  fun_induction afterComment cs with
  | case1 => cases h
  | case2 rest' =>
    cases h
    simp only [List.length_cons]
    omega
  | case3 c cs _ ih =>
    have := ih h
    simp only [List.length_cons]
    omega

/-- Removes comments. One that does not end is no comment. -/
def stripComments (cs : List Char) : List Char :=
  match cs with
  | [] => []
  | '/' :: '*' :: rest =>
    match _h : afterComment rest with
    | some rest' => stripComments rest'
    | none => '/' :: '*' :: rest
  | c :: rest => c :: stripComments rest
termination_by cs.length
decreasing_by
  · have := length_afterComment _h; simp; omega
  · simp

def splitLines : List Char → List (List Char)
  | [] => [[]]
  | '\n' :: rest => [] :: splitLines rest
  | c :: rest =>
    match splitLines rest with
    | [] => [[c]]
    | line :: lines => (c :: line) :: lines

/-- The lines of a text without comments and without blank space around them, those that are not
empty. -/
def significantLines (text : List Char) : List (List Char) :=
  ((splitLines (stripComments text)).map Text.trimBlank).filter fun l => !l.isEmpty

def isSeparator (c : Char) : Bool :=
  c == ' ' || c == '\t' || c == '\n' || c == '\x0c' || c == '\r'

def isStateStart (c : Char) : Bool := c.isAlpha || c == '_'

def isStateChar (c : Char) : Bool := c.isAlphanum || c == '_'

/-- A state name at the front of a text, and what follows it. -/
def stateName : List Char → Option (List Char × List Char)
  | [] => none
  | c :: rest =>
    if isStateStart c then some (c :: rest.takeWhile isStateChar, rest.dropWhile isStateChar)
    else none

def label (line : List Char) : Option String := do
  let (name, rest) ← stateName line
  if rest.dropWhile isSeparator = [':'] then some (String.ofList name) else none

/-- The target of a jump that makes up all of a text. -/
def jump (text : List Char) : Option String := do
  let rest ← Text.after ['-', '>'] (text.dropWhile isSeparator)
  let rest ← Text.after ['g', 'o', 't', 'o'] (rest.dropWhile isSeparator)
  if !(rest.headD 'x' |> isSeparator) then none
  let (name, rest) ← stateName (rest.dropWhile isSeparator)
  match rest.dropWhile isSeparator with
  | [] | [';'] => some (String.ofList name)
  | _ => none

/-- The shortest guard such that the rest of a text is a jump, and the target of the jump. -/
def guardedJump (guard : List Char) (text : List Char) : Option (String × String) :=
  match jump text with
  | some target => some (String.ofList guard, target)
  | none =>
    match text with
    | [] => none
    | c :: rest => guardedJump (guard ++ [c]) rest

inductive Line where
  | label (name : String)
  /-- A bracket of options, or a state that cannot be left. -/
  | idle
  /-- A loop that is always open. -/
  | loop
  | option (guard target : String)
  | badOption (text : String)
  | other (text : String)
deriving DecidableEq, Repr

namespace Line

/-- Lines that say nothing about edges. -/
def idleTexts : List String := ["if", "fi;", "fi", "do", "od;", "od", "false;", "false"]

def read (line : List Char) : Line :=
  match NeverClaim.label line with
  | some name => label name
  | none =>
    let text := String.ofList line
    if idleTexts.contains text then idle
    else if text = "skip" ∨ text = "skip;" then loop
    else match line with
      | ':' :: ':' :: rest =>
        match guardedJump [] (rest.dropWhile isSeparator) with
        | some (guard, target) => option guard target
        | none => badOption text
      | _ => other text

/-- The names that the labels among lines declare. -/
def labels (lines : List Line) : List String :=
  lines.filterMap fun l => match l with
    | label name => some name
    | _ => none

end Line

def body (text : String) : Option (List (List Char)) :=
  let lines := significantLines text.toList
  match lines with
  | first :: rest@(_ :: _) =>
    if (Text.after "never".toList first).isSome && rest.getLast? == some ['\x7d'] then
      match rest.dropLast with
      | ['\x7b'] :: inner => some inner
      | inner => some inner
    else none
  | _ => none

/-- The first name that occurs again behind itself. -/
def firstRepeated : (seen : List String) → List String → Option String
  | _, [] => none
  | seen, x :: rest => if seen.contains x then some x else firstRepeated (x :: seen) rest

def isInitialName (name : String) : Bool := name.endsWith "_init" || name == "init"

def isAcceptingName (name : String) : Bool := name.startsWith "accept_"

/-- The states that a list of names declares. Without an initial state the first one is initial. -/
def skeleton (n : Nat) (names : List String) : Automaton n :=
  let indexed := names.zip (List.finRange names.length)
  let chosen (p : String → Bool) := (indexed.filter fun x => p x.1).map (·.2)
  let initial := match chosen isInitialName with
    | [] => (List.finRange names.length).take 1
    | states => states
  ⟨names.length, [], initial, chosen isAcceptingName⟩

/-- The edge that a line adds to the state whose lines are being read, if it adds one, and the state
whose lines come next. -/
def readLine {n : Nat} (scope : Scope) (names : List String) (text : List Char)
    (current : Option Nat) : Attempt ClaimError (Option (Nat × Nat × Diagram n) × Option Nat) :=
  match Line.read text, current with
  | .label name, _ => return (none, names.idxOf? name)
  | _, none => Attempt.refuse (.outsideState (String.ofList text))
  | .idle, some q => return (none, some q)
  | .loop, some q => return (some (q, q, .const true), some q)
  | .badOption text, _ => Attempt.refuse (.badOption text)
  | .other text, _ => Attempt.refuse (.unexpectedLine text)
  | .option guard target, some q => do
    match names.idxOf? target with
    | none => Attempt.refuse (.unknownState target)
    | some t =>
      let d ← (scope.compileText guard).restate (.badGuard guard)
      return (some (q, t, d), some q)

def addLine {n : Nat} (scope : Scope) (names : List String) (text : List Char)
    (s : Automaton n × Option Nat) : Attempt ClaimError (Automaton n × Option Nat) := do
  match ← readLine scope names text s.2 with
  | (none, current) => return (s.1, current)
  | (some (q, t, d), current) => return (← Attempt.ofMisuse (s.1.addEdge q t d), current)

/-- The lines of a claim, and the names of the states that they declare. -/
def outline (text : String) : Attempt ClaimError (List (List Char) × List String) := do
  let some lines := body text | Attempt.refuse .missingBlock
  let names := Line.labels (lines.map Line.read)
  if let some name := firstRepeated [] names then Attempt.refuse (.duplicateState name)
  if names.isEmpty then Attempt.refuse .noState
  return (lines, names)

/-- Reads a claim, with guards that have their meaning in a scope. -/
def parse {n : Nat} (scope : Scope) (text : String) : Attempt ClaimError (Automaton n) := do
  let (lines, names) ← outline text
  let (a, _) ← lines.foldlM (fun s l => addLine scope names l s) (skeleton n names, none)
  return a

end NeverClaim
end SymbolicLtl
