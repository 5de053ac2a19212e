import SymbolicLtl.Shell.Word

/-! Tokens of scripts, each with the line in which it ends. -/
namespace SymbolicLtl.Shell

inductive Operator where
  | semicolon
  | doubleSemicolon
  | background
  | andThen
  | orElse
  | pipe
  | openParen
  | closeParen
deriving DecidableEq, Repr

def Operator.text : Operator → String
  | semicolon => ";"
  | doubleSemicolon => ";;"
  | background => "&"
  | andThen => "&&"
  | orElse => "||"
  | pipe => "|"
  | openParen => "("
  | closeParen => ")"

/-- What a redirection does with the word behind it. -/
inductive Direction where
  | read
  /-- A file that is not there is made. -/
  | readOrMake
  | write
  | append
  /-- The word is the number of another stream. -/
  | copy
deriving DecidableEq, Repr

/-- Why a text is no script. -/
inductive SyntaxFault where
  | unexpected (line : Nat) (found : String) (expected : Option String)
  | unended (line : Nat) (what : Unended)
  | misnamed (line : Nat) (text : String)
deriving DecidableEq, Repr

/-- The message of a script, and of the command that runs the text as a part of it. -/
def SyntaxFault.message (name : String) (command : Option String) (f : SyntaxFault) : String :=
  let context := match command with
    | some c => c ++ ": "
    | none => ""
  let (line, text) := describe f
  s!"{name}: {line}: {context}Syntax error: {text}\n"
where
  describe : SyntaxFault → Nat × String
    | unexpected line found expected =>
      let hint := match expected with
        | some e => " (expecting " ++ e ++ ")"
        | none => ""
      (line, found ++ " unexpected" ++ hint)
    | unended line .quote => (line, "Unterminated quoted string")
    | unended line .accent => (line, "EOF in backquote substitution")
    | unended line .brace => (line, "Missing '\x7d'")
    | unended line .doubleParenthesis => (line, "Missing '))'")
    | unended line .parenthesis => (line, "end of file unexpected (expecting \")\")")
    | misnamed line text => (line, text)

inductive Token where
  | word (w : Word)
  | newline
  | operator (o : Operator)
  /-- The stream with this number is redirected; the word that says where to is the next token. -/
  | redirect (stream : Nat) (d : Direction)
  /-- The stream reads a text of the script itself, in which values are filled in or not. -/
  | document (stream : Nat) (text : List Char) (isLiteral : Bool)
  /-- The text ends here. -/
  | finish
  /-- The rest of the text cannot be read. -/
  | fault (f : SyntaxFault)
deriving DecidableEq, Repr

structure Lexeme where
  line : Nat
  token : Token
deriving DecidableEq, Repr

inductive Place where
  /-- Commands. -/
  | script
  /-- One word with its quotes, in which blanks and operators are plain characters. -/
  | operand
  /-- One word as between double quotes. -/
  | document
deriving DecidableEq, Repr

inductive Quoting where
  | none
  | single
  | double
  | comment
deriving DecidableEq, Repr

/-- How far a text has been read. -/
structure Scan where
  place : Place
  line : Nat := 1
  /-- This many characters were read already. -/
  skip : Nat := 0
  /-- This many characters behind the next end of a line were read already. -/
  held : Nat := 0
  quoting : Quoting := .none
  /-- The word that has been begun, its last piece first. -/
  word : Option Word := none

namespace Scan

def push (s : Scan) (p : Piece) : Scan := { s with word := some (p :: s.word.getD []) }

def ended (s : Scan) : List Lexeme := (s.word.map fun w => ⟨s.line, .word w.reverse⟩).toList

def isQuoted (s : Scan) : Bool := s.quoting = .double || s.place = .document

end Scan

/-- The operator at the front of a text, and its length. -/
def readOperator : List Char → Option (Operator × Nat)
  | '&' :: '&' :: _ => some (.andThen, 2)
  | '&' :: _ => some (.background, 1)
  | '|' :: '|' :: _ => some (.orElse, 2)
  | '|' :: _ => some (.pipe, 1)
  | ';' :: ';' :: _ => some (.doubleSemicolon, 2)
  | ';' :: _ => some (.semicolon, 1)
  | '(' :: _ => some (.openParen, 1)
  | ')' :: _ => some (.closeParen, 1)
  | _ => none

/-- The redirection at the front of a text, the stream it is for by itself, and its length. -/
def readRedirect : List Char → Option (Direction × Nat × Nat)
  | '>' :: '>' :: _ => some (.append, 1, 2)
  | '>' :: '&' :: _ => some (.copy, 1, 2)
  | '>' :: '|' :: _ => some (.write, 1, 2)
  | '>' :: _ => some (.write, 1, 1)
  | '<' :: '&' :: _ => some (.copy, 0, 2)
  | '<' :: '>' :: _ => some (.readOrMake, 0, 2)
  | '<' :: '<' :: _ => some (.read, 0, 2)
  | '<' :: _ => some (.read, 0, 1)
  | _ => none

/-- The lines up to the one that is the given mark, and the length of all of them. -/
def documentLines (indented : Bool) (mark : List Char) :
    (current : List Char) → List Char → List Char × Nat
  | current, [] =>
    let line := if indented then current.reverse.dropWhile (· == '\t') else current.reverse
    (if line = mark then [] else line, 0)
  | current, c :: rest =>
    if c = '\n' then
      let line := if indented then current.reverse.dropWhile (· == '\t') else current.reverse
      if line = mark then ([], 1)
      else
        let (text, length) := documentLines indented mark [] rest
        (line ++ '\n' :: text, length + 1)
    else
      let (text, length) := documentLines indented mark (c :: current) rest
      (text, length + 1)

/-- A text of the script itself: whether its lines are indented, its mark with quotes, and the
number of characters up to the end of the mark. -/
def readDocumentMark (text : List Char) : Option (Bool × List Char × Nat) :=
  let isPart (c : Char) : Bool := !" \t\n;&|<>()".toList.contains c
  let behind (indented : Bool) (start : Nat) (rest : List Char) : Option (Bool × List Char × Nat) :=
    let blanks := rest.takeWhile fun c => c == ' ' || c == '\t'
    let mark := (rest.drop blanks.length).takeWhile isPart
    if mark.isEmpty then none else some (indented, mark, start + blanks.length + mark.length)
  match text with
  | '<' :: '<' :: '-' :: rest => behind true 3 rest
  | '<' :: '<' :: rest => behind false 2 rest
  | _ => none

/-- The stream that a word directly in front of a redirection names. -/
def streamNumber? (word : Option Word) : Option Nat :=
  match word with
  | some [.char c false] => if c.isDigit then some (c.toNat - '0'.toNat) else none
  | _ => none

namespace Scan

/-- What reading a character gives: tokens that end here, and how the text is read on. -/
abbrev Advance := Except SyntaxFault (List Lexeme × Scan)

def onward (s : Scan) : Advance := .ok ([], s)

def keep (s : Scan) (c : Char) : Advance :=
  (s.push (.char c (s.quoting ≠ .none || s.place = .document))).onward

/-- The character behind a backslash stands for itself, and the end of a line for nothing. -/
def protect (s : Scan) (rest : List Char) : Advance :=
  match rest with
  | [] => s.keep '\\'
  | c :: _ => ({ if c = '\n' then s else s.push (.char c true) with skip := 1 } : Scan).onward

/-- Values are filled in at dollars and accents. -/
def fill (s : Scan) (c : Char) (rest : List Char) : Advance :=
  let filled (f : Filling) (length : Nat) : Advance :=
    ({ s.push (.filling f s.isQuoted) with skip := length } : Scan).onward
  if c = '$' then match readFilling rest with
    | .ok (some (f, length)) => filled f length
    | .ok none => s.keep c
    | .error e => .error (.unended s.line e)
  else if c = '`' then match lengthUpTo '`' rest with
    | .ok k => filled (.output (unprotected (rest.take (k - 1)))) k
    | .error c => .error (.unended s.line (.ofChar c))
  else s.keep c

/-- Reads a character between double quotes. -/
def inQuotes (s : Scan) (c : Char) (rest : List Char) : Advance :=
  let isProtected := match rest with
    | d :: _ => d == '$' || d == '\\' || d == '`' || d == '\n' || (d == '"' && s.place ≠ .document)
    | [] => false
  if c = '\\' && isProtected then s.protect rest else s.fill c rest

/-- A line ends; what was read already behind it is skipped. -/
def endLine (s : Scan) : List Lexeme × Scan :=
  (s.ended ++ [⟨s.line, .newline⟩],
    { s with quoting := .none, word := none, skip := s.held, held := 0 })

/-- Reads an operator or a redirection. -/
def operate (s : Scan) (c : Char) (rest : List Char) : Advance :=
  let next (length : Nat) : Scan := { s with word := none, skip := length - 1 }
  let stream? := streamNumber? s.word
  let ended := if stream?.isSome then [] else s.ended
  match readDocumentMark (c :: rest), readRedirect (c :: rest), readOperator (c :: rest) with
  | some (indented, mark, length), _, _ =>
    let isQuote (c : Char) : Bool := c == '\'' || c == '"' || c == '\\'
    let body := ((rest.dropWhile (· != '\n')).drop 1).drop s.held
    let (text, taken) := documentLines indented (mark.filter (!isQuote ·)) [] body
    .ok (ended ++ [⟨s.line, .document (stream?.getD 0) text (mark.any isQuote)⟩],
      { next length with held := s.held + taken })
  | none, some (d, stream, length), _ =>
    .ok (ended ++ [⟨s.line, .redirect (stream?.getD stream) d⟩], next length)
  | none, none, some (o, length) => .ok (s.ended ++ [⟨s.line, .operator o⟩], next length)
  | none, none, none => s.keep c

def outside (s : Scan) (c : Char) (rest : List Char) : Advance :=
  if c = '\'' then ({ s.push .quote with quoting := .single } : Scan).onward
  else if c = '"' then ({ s.push .quote with quoting := .double } : Scan).onward
  else if c = '\\' then (if rest.head? = some '\n' then s else s.push .quote).protect rest
  else if c = '$' || c = '`' then s.fill c rest
  else if s.place = .operand then s.keep c
  else if c = ' ' || c = '\t' then .ok (s.ended, { s with word := none })
  else if c = '#' && s.word.isNone then ({ s with quoting := .comment } : Scan).onward
  else if c = '\n' then .ok s.endLine
  else if "<>&|;()".contains c then s.operate c rest
  else s.keep c

def read (s : Scan) (c : Char) (rest : List Char) : Advance :=
  if 0 < s.skip then ({ s with skip := s.skip - 1 } : Scan).onward
  else match s.quoting with
    | .comment => if c = '\n' then .ok s.endLine else s.onward
    | .single => if c = '\'' then ({ s with quoting := .none } : Scan).onward else s.keep c
    | .double =>
      if c = '"' then ({ s with quoting := .none } : Scan).onward else s.inQuotes c rest
    | .none => if s.place = .document then s.inQuotes c rest else s.outside c rest

end Scan

def tokens (s : Scan) : List Char → List Lexeme
  | [] =>
    if s.quoting = .single || s.quoting = .double then [⟨s.line, .fault (.unended s.line .quote)⟩]
    else s.ended ++ [⟨s.line, .finish⟩]
  | c :: rest =>
    let line := if c = '\n' then s.line + 1 else s.line
    match s.read c rest with
    | .error f => [⟨s.line, .fault f⟩]
    | .ok ([], next) => tokens { next with line := line } rest
    | .ok (ended, next) => ended ++ tokens { next with line := line } rest

def scriptTokens (text : List Char) : List Lexeme := tokens { place := .script } text

def readWord (place : Place) (text : List Char) : Word :=
  match tokens { place := place } text with
  | ⟨_, .word w⟩ :: _ => w
  | _ => []

end SymbolicLtl.Shell
