/-!
Words of scripts: characters, quotes, and the places where values are filled in. A value is that of
a parameter, the output of a script, or a number that is computed.
-/
namespace SymbolicLtl.Shell

/-- What is done with the value of a parameter. -/
inductive Rule where
  | value
  | length
  /-- A word stands in for a missing value. -/
  | byDefault
  /-- The word also becomes the value. -/
  | assign
  /-- A missing value ends the script. -/
  | require
  /-- The word stands in for a value that is there. -/
  | replace
  /-- The shortest or the longest beginning that fits the word is removed. -/
  | dropFront (longest : Bool)
  /-- The shortest or the longest end that fits the word is removed. -/
  | dropBack (longest : Bool)
deriving DecidableEq, Repr

structure Parameter where
  name : String
  rule : Rule := .value
  /-- An empty value counts as missing. -/
  orEmpty : Bool := false
  word : List Char := []
deriving DecidableEq, Repr

/-- What is filled into a word. -/
inductive Filling where
  | parameter (p : Parameter)
  | output (script : List Char)
  | arithmetic (text : List Char)
  /-- The text in braces is no parameter. -/
  | malformed
deriving DecidableEq, Repr

inductive Piece where
  | char (c : Char) (quoted : Bool)
  /-- A quote begins here, so that the word is there even if it is empty. -/
  | quote
  | filling (f : Filling) (quoted : Bool)
deriving DecidableEq, Repr

abbrev Word := List Piece

def Word.plain? (w : Word) : Option String :=
  let plain : Piece → Option Char
    | .char c false => some c
    | _ => none
  (w.mapM plain).map String.ofList

def isNameChar (c : Char) : Bool := c.isAlphanum || c == '_'

def isName (name : String) : Bool :=
  name.toList.all isNameChar && match name.toList with
    | c :: _ => !c.isDigit
    | [] => false

/-- Parameters whose name is one special character. -/
def isSpecialParameter (c : Char) : Bool :=
  c.isDigit || ['?', '#', '$', '@', '*', '!', '-'].contains c

/-- What has been begun: the character that ends it, and how many selections are open inside, whose
patterns end with parentheses of their own. -/
structure Nesting where
  close : Char
  selections : Nat := 0
deriving DecidableEq, Repr

namespace Nesting

/-- A selection begins or ends with the word at the front of a text. -/
def atWord (n : Nesting) (text : List Char) : Nesting :=
  let isEnded := match text.drop 4 with
    | c :: _ => !isNameChar c
    | [] => true
  if n.close ≠ ')' || !isEnded then n
  else if text.take 4 == ['c', 'a', 's', 'e'] then { n with selections := n.selections + 1 }
  else if text.take 4 == ['e', 's', 'a', 'c'] then { n with selections := n.selections - 1 }
  else n

/-- What is open behind a character, and whether the next one belongs to it. The flag tells whether
a word begins. -/
def step (atStart : Bool) (top : Nesting) (stack : List Nesting) (c : Char) (rest : List Char) :
    List Nesting × Nat :=
  let isQuoted := top.close = '"' || (top.close = '\x7d' && (stack.head?.map (·.close)) = some '"')
  if top.close = '\'' then (if c = '\'' then stack else top :: stack, 0)
  else if c = '\\' then (top :: stack, 1)
  else if top.close = '`' then (if c = '`' then stack else top :: stack, 0)
  else if c = '$' && rest.head? = some '(' then (⟨')', 0⟩ :: top :: stack, 1)
  else if c = '$' && rest.head? = some '\x7b' then (⟨'\x7d', 0⟩ :: top :: stack, 1)
  else if c = top.close then (if 0 < top.selections then top :: stack else stack, 0)
  else if c = '"' || c = '`' || (c = '\'' && !isQuoted) then (⟨c, 0⟩ :: top :: stack, 0)
  else if c = '(' && top.close = ')' then (⟨')', 0⟩ :: top :: stack, 0)
  else ((if atStart then top.atWord (c :: rest) else top) :: stack, 0)

end Nesting

/-- The number of characters up to the end of a nesting. The stack holds what has been begun, the
innermost first; if the text ends before, the innermost end is missing. The first `skip` characters
were read already. -/
def nestedLength : (skip : Nat) → (atStart : Bool) → (stack : List Nesting) → List Char →
    Except Char Nat
  | _, _, [], _ => .ok 0
  | _, _, top :: _, [] => .error top.close
  | k + 1, _, stack, _ :: rest => (nestedLength k false stack rest).map (· + 1)
  | 0, atStart, top :: stack, c :: rest =>
    let (stack, skip) := top.step atStart stack c rest
    (nestedLength skip (" \t\n;&|()".contains c) stack rest).map (· + 1)

/-- The number of characters up to and with the one that ends what has been begun. -/
def lengthUpTo (close : Char) (text : List Char) : Except Char Nat :=
  nestedLength 0 true [⟨close, 0⟩] text

def readRule (name : String) (text : List Char) : Option Parameter :=
  let rule? : Char → Option Rule
    | '-' => some .byDefault
    | '=' => some .assign
    | '?' => some .require
    | '+' => some .replace
    | _ => none
  match text with
  | [] => some ⟨name, .value, false, []⟩
  | '#' :: '#' :: word => some ⟨name, .dropFront true, false, word⟩
  | '#' :: word => some ⟨name, .dropFront false, false, word⟩
  | '%' :: '%' :: word => some ⟨name, .dropBack true, false, word⟩
  | '%' :: word => some ⟨name, .dropBack false, false, word⟩
  | ':' :: c :: word => (rule? c).map (⟨name, ·, true, word⟩)
  | c :: word => (rule? c).map (⟨name, ·, false, word⟩)

/-- The name of a parameter at the front of a text, and the rest. -/
def takeName : List Char → Option (String × List Char)
  | [] => none
  | c :: rest =>
    if c.isDigit then
      some (String.ofList ((c :: rest).takeWhile Char.isDigit), (c :: rest).dropWhile Char.isDigit)
    else if isNameChar c then
      some (String.ofList ((c :: rest).takeWhile isNameChar), (c :: rest).dropWhile isNameChar)
    else if isSpecialParameter c then some (c.toString, rest)
    else none

def readBraces : List Char → Filling
  | '#' :: c :: rest =>
    match takeName (c :: rest) with
    | some (name, []) => .parameter ⟨name, .length, false, []⟩
    | _ => ((readRule "#" (c :: rest)).map .parameter).getD .malformed
  | text =>
    match takeName text with
    | some (name, rest) => ((readRule name rest).map .parameter).getD .malformed
    | none => .malformed

/-- The script or the number in parentheses. Two parentheses begin a number. -/
def readParentheses (text : List Char) : Option Filling :=
  match text with
  | '(' :: rest =>
    match lengthUpTo ')' rest with
    | .ok k => if k = rest.length then some (.arithmetic rest.dropLast) else none
    | .error _ => none
  | _ => some (.output text)

/-- A script between accents loses the backslashes that protect accents, dollars and backslashes. -/
def unprotected : List Char → List Char
  | '\\' :: c :: rest =>
    if c = '`' || c = '$' || c = '\\' then c :: unprotected rest
    else '\\' :: c :: unprotected rest
  | c :: rest => c :: unprotected rest
  | [] => []

inductive Unended where
  | quote
  | accent
  | brace
  | parenthesis
  | doubleParenthesis
deriving DecidableEq, Repr

def Unended.ofChar : Char → Unended
  | '`' => accent
  | '\x7d' => brace
  | ')' => parenthesis
  | _ => quote

/-- What is filled in behind a dollar sign, and the length of its text. Other dollars stand for
themselves. -/
def readFilling : List Char → Except Unended (Option (Filling × Nat))
  | '\x7b' :: rest =>
    match lengthUpTo '\x7d' rest with
    | .ok k => .ok (some (readBraces (rest.take (k - 1)), k + 1))
    | .error c => .error (.ofChar c)
  | '(' :: rest =>
    match lengthUpTo ')' rest with
    | .ok k =>
      match readParentheses (rest.take (k - 1)) with
      | some f => .ok (some (f, k + 1))
      | none => .error .doubleParenthesis
    | .error c => .error (if rest.head? = some '(' then .doubleParenthesis else .ofChar c)
  | c :: rest =>
    if isSpecialParameter c then .ok (some (.parameter ⟨c.toString, .value, false, []⟩, 1))
    else if isNameChar c then
      let name := (c :: rest).takeWhile isNameChar
      .ok (some (.parameter ⟨String.ofList name, .value, false, []⟩, name.length))
    else .ok none
  | [] => .ok none

/-- The variable that a word assigns, and its new value. -/
def assignment? (w : Word) : Option (String × Word) :=
  let isPart : Piece → Bool
    | .char c false => isNameChar c
    | _ => false
  match w.takeWhile isPart, w.dropWhile isPart with
  | c :: name, .char '=' false :: rest =>
    (Word.plain? (c :: name)).bind fun x => if isName x then some (x, rest) else none
  | _, _ => none

end SymbolicLtl.Shell
