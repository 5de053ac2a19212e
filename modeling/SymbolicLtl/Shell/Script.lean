import SymbolicLtl.Shell.Token

/-!
Scripts: commands, and how they are composed. A script is read line by line, so that a fault in a
line is found when the lines before it have been run.
-/
namespace SymbolicLtl.Shell

/-- Where a stream goes to or comes from. -/
inductive Target where
  | word (d : Direction) (w : Word)
  | document (text : List Char) (isLiteral : Bool)
deriving DecidableEq, Repr

structure Redirection where
  stream : Nat
  target : Target
deriving DecidableEq, Repr

inductive Command where
  | nothing
  /-- Words and redirections, and the line they begin in. -/
  | simple (line : Nat) (words : List Word) (redirections : List Redirection)
  | sequence (first second : Command)
  | andThen (first second : Command)
  | orElse (first second : Command)
  | negated (c : Command)
  | pipe (first second : Command)
  | background (c : Command)
  /-- The command works on a copy of the state. -/
  | separate (c : Command)
  | choice (condition yes no : Command)
  | loop (isUntil : Bool) (condition body : Command)
  | forEach (name : String) (words : List Word) (body : Command)
  | selection (word : Word) (arms : List (List Word × Command))
  | redirected (c : Command) (redirections : List Redirection)
  | function (name : String) (body : Command)

/-- Words that have a meaning of their own where a command may begin. -/
def reservedWords : List String := [
  "!", "case", "do", "done", "elif", "else", "esac", "fi", "for", "if", "in", "then", "until",
  "while", "\x7b", "\x7d"]

namespace Token

def keyword? : Token → Option String
  | word w => w.plain?.filter reservedWords.contains
  | _ => none

/-- How a token is called where it is not expected. -/
def describe (t : Token) : String :=
  match t, t.keyword? with
  | _, some k => "\"" ++ k ++ "\""
  | word _, none => "word"
  | newline, _ => "newline"
  | operator o, _ => "\"" ++ o.text ++ "\""
  | redirect .., _ | document .., _ => "redirection"
  | _, _ => "end of file"

/-- A list of commands ends in front of these tokens. -/
def endsList (t : Token) : Bool :=
  match t with
  | finish | operator .closeParen | operator .doubleSemicolon => true
  | t => match t.keyword? with
    | some k => ["\x7d", "do", "done", "elif", "else", "esac", "fi", "then"].contains k
    | none => false

end Token

/-- What reads a part of a script. -/
abbrev Grammar := StateT (List Lexeme) (Except SyntaxFault)

namespace Grammar

def peek : Grammar Lexeme := do return (← get).headD ⟨1, .finish⟩

def advance : Grammar Unit := modify (·.drop 1)

def unexpected {α : Type} (expected : Option String) : Grammar α := do
  let l ← peek
  match l.token with
  | .fault f => throw f
  | t => throw (.unexpected l.line t.describe expected)

def skipLines : Grammar Unit := modify (·.dropWhile (·.token = .newline))

def isAt (keyword : String) : Grammar Bool := do return (← peek).token.keyword? = some keyword

def expectWord (keyword : String) : Grammar Unit := do
  if ← isAt keyword then advance else unexpected (some ("\"" ++ keyword ++ "\""))

def expectOperator (o : Operator) : Grammar Unit := do
  if (← peek).token = .operator o then advance
  else unexpected (some ("\"" ++ o.text ++ "\""))

def redirection? : Grammar (Option Redirection) := do
  match (← peek).token with
  | .document stream text isLiteral =>
    advance
    return some ⟨stream, .document text isLiteral⟩
  | .redirect stream d =>
    advance
    match (← peek).token with
    | .word w =>
      advance
      return some ⟨stream, .word d w⟩
    | _ => unexpected none
  | _ => return none

def redirections : (fuel : Nat) → Grammar (List Redirection)
  | 0 => return []
  | n + 1 => do
    match ← redirection? with
    | some r => return r :: (← redirections n)
    | none => return []

def words : (fuel : Nat) → Grammar (List Word)
  | 0 => return []
  | n + 1 => do
    match (← peek).token with
    | .word w =>
      advance
      return w :: (← words n)
    | _ => return []

/-- The words of a pattern, with bars between them. -/
def patterns : (fuel : Nat) → Grammar (List Word)
  | 0 => return []
  | n + 1 => do
    match (← peek).token with
    | .word w =>
      advance
      if (← peek).token = .operator .pipe then
        advance
        return w :: (← patterns n)
      else return [w]
    | .fault f => throw f
    | t =>
      if t ≠ .finish then advance
      unexpected (some "\")\"")

/-- The words and redirections of a simple command. -/
def parts : (fuel : Nat) → Grammar (List Word × List Redirection)
  | 0 => return ([], [])
  | n + 1 => do
    match ← redirection? with
    | some r =>
      let (ws, rs) ← parts n
      return (ws, r :: rs)
    | none =>
      match (← peek).token with
      | .word w =>
        advance
        let (ws, rs) ← parts n
        return (w :: ws, rs)
      | _ => return ([], [])

def loopVariable : Grammar String := do
  let l ← peek
  match l.token with
  | .word w =>
    match w.plain?.filter isName with
    | some name =>
      advance
      return name
    | none => throw (.misnamed l.line "Bad for loop variable")
  | .fault f => throw f
  | _ => throw (.misnamed l.line "Bad for loop variable")

/-- The words that a loop runs through; without any they are all arguments. -/
def loopWords (fuel : Nat) : Grammar (List Word) := do
  skipLines
  let all : List Word :=
    [[.quote, .filling (.parameter ⟨"@", .value, false, []⟩) true]]
  if ← isAt "in" then
    advance
    let ws ← words fuel
    let t := (← peek).token
    if t = .newline || t = .operator .semicolon then
      advance
      return ws
    else unexpected none
  else
    if (← peek).token = .operator .semicolon then advance
    return all

mutual

/-- Commands up to a token that ends a list. -/
def list : (fuel : Nat) → Grammar Command
  | 0 => return .nothing
  | n + 1 => do
    skipLines
    if (← peek).token = .finish then return .nothing
    let first ← conditional n
    let t := (← peek).token
    if t = .newline || t = .operator .semicolon || t = .operator .background then
      advance
      skipLines
      let first := if t = .operator .background then .background first else first
      if (← peek).token.endsList then return first else return .sequence first (← list n)
    else return first

/-- Commands that depend on each other. -/
def conditional : (fuel : Nat) → Grammar Command
  | 0 => return .nothing
  | n + 1 => do dependents n (← pipeline n)

def dependents : (fuel : Nat) → Command → Grammar Command
  | 0, first => return first
  | n + 1, first => do
    match (← peek).token with
    | .operator .andThen =>
      advance
      skipLines
      dependents n (.andThen first (← pipeline n))
    | .operator .orElse =>
      advance
      skipLines
      dependents n (.orElse first (← pipeline n))
    | _ => return first

def pipeline : (fuel : Nat) → Grammar Command
  | 0 => return .nothing
  | n + 1 => do
    if ← isAt "!" then
      advance
      return .negated (← piped n)
    else piped n

def piped : (fuel : Nat) → Grammar Command
  | 0 => return .nothing
  | n + 1 => do
    let first ← command n
    if (← peek).token = .operator .pipe then
      advance
      skipLines
      return .pipe first (← piped n)
    else return first

def command : (fuel : Nat) → Grammar Command
  | 0 => return .nothing
  | n + 1 => do
    let l ← peek
    match l.token, l.token.keyword? with
    | .operator .openParen, _ =>
      advance
      let c ← list n
      expectOperator .closeParen
      compound n (.separate c)
    | _, some "\x7b" =>
      advance
      let c ← list n
      expectWord "\x7d"
      compound n c
    | _, some "if" =>
      advance
      compound n (← branches n)
    | _, some "while" => compound n (← repetition n false)
    | _, some "until" => compound n (← repetition n true)
    | _, some "for" =>
      advance
      let name ← loopVariable
      let ws ← loopWords n
      skipLines
      expectWord "do"
      let body ← list n
      expectWord "done"
      compound n (.forEach name ws body)
    | _, some "case" =>
      advance
      match (← peek).token with
      | .word w =>
        advance
        skipLines
        expectWord "in"
        compound n (.selection w (← arms n))
      | _ => unexpected (some "word")
    | .word w, none =>
      match (← get).drop 1, assignment? w with
      | ⟨_, .operator .openParen⟩ :: _, none => definition n l.line w
      | _, _ =>
        let (ws, rs) ← parts (n + 1)
        return .simple l.line ws rs
    | .redirect .., _ | .document .., _ =>
      let (ws, rs) ← parts (n + 1)
      return .simple l.line ws rs
    | _, _ => unexpected none

/-- The redirections behind a composed command. -/
def compound (fuel : Nat) (c : Command) : Grammar Command := do
  match ← redirections fuel with
  | [] => return c
  | rs => return .redirected c rs

/-- What follows the word that begins a choice. -/
def branches : (fuel : Nat) → Grammar Command
  | 0 => return .nothing
  | n + 1 => do
    let condition ← list n
    expectWord "then"
    let yes ← list n
    if ← isAt "elif" then
      advance
      return .choice condition yes (← branches n)
    else if ← isAt "else" then
      advance
      let no ← list n
      expectWord "fi"
      return .choice condition yes no
    else
      expectWord "fi"
      return .choice condition yes .nothing

def repetition : (fuel : Nat) → (isUntil : Bool) → Grammar Command
  | 0, _ => return .nothing
  | n + 1, isUntil => do
    advance
    let condition ← list n
    expectWord "do"
    let body ← list n
    expectWord "done"
    return .loop isUntil condition body

def arms : (fuel : Nat) → Grammar (List (List Word × Command))
  | 0 => return []
  | n + 1 => do
    skipLines
    if ← isAt "esac" then
      advance
      return []
    else
      if (← peek).token = .operator .openParen then advance
      let ps ← patterns (n + 1)
      expectOperator .closeParen
      skipLines
      let body ← if (← peek).token.endsList then pure Command.nothing else list n
      if (← peek).token = .operator .doubleSemicolon then
        advance
        return (ps, body) :: (← arms n)
      else if ← isAt "esac" then
        advance
        return [(ps, body)]
      else unexpected (some "\";;\"")

def definition : (fuel line : Nat) → Word → Grammar Command
  | 0, _, _ => return .nothing
  | n + 1, line, w => do
    advance
    advance
    expectOperator .closeParen
    match w.plain?.filter isName with
    | some name =>
      skipLines
      return .function name (← command n)
    | none => throw (.misnamed line "Bad function name")

end

/-- The commands of one line. -/
def line : (fuel : Nat) → Grammar Command
  | 0 => return .nothing
  | n + 1 => do
    let first ← conditional n
    let t := (← peek).token
    if t = .newline then
      advance
      return first
    else if t = .operator .semicolon || t = .operator .background then
      advance
      let first := if t = .operator .background then .background first else first
      let next := (← peek).token
      if next = .newline then
        advance
        return first
      else if next = .finish then return first
      else return .sequence first (← line n)
    else if t = .finish then return first
    else unexpected none

/-- The commands of a script, line after line, and the fault that ends it. -/
def script : (fuel : Nat) → List Lexeme → List Command × Option SyntaxFault
  | 0, _ => ([], none)
  | n + 1, ls =>
    match ls.dropWhile (·.token = .newline) with
    | [] | ⟨_, .finish⟩ :: _ => ([], none)
    | ls =>
      match (line (16 * ls.length + 16)).run ls with
      | .error f => ([], some f)
      | .ok (c, rest) =>
        let (cs, f) := script n rest
        (c :: cs, f)

end Grammar

def readScript (text : List Char) : List Command × Option SyntaxFault :=
  let ls := scriptTokens text
  Grammar.script (ls.length + 1) ls

end SymbolicLtl.Shell
