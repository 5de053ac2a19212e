import SymbolicLtl.Formula.Basic
import SymbolicLtl.Text.Quoted

/-! Tokens of written formulas and the scanner that finds them. -/
namespace SymbolicLtl

inductive TokenKind where
  | finish
  | name
  | truth (value : Bool)
  | bang
  | connective (op : Connective)
  | lparen
  | rparen
deriving DecidableEq, Repr

/-- A token, its text and the number of characters before it. -/
structure Token where
  kind : TokenKind
  text : String
  pos : Nat
deriving DecidableEq, Repr

inductive SyntaxFault where
  | badCharacter (c : Char)
  | unexpectedEnd
  | unexpected (text : String)
  | expectedVariable (got : String)
  | expectedClosing (got : String)
deriving DecidableEq, Repr

namespace SyntaxFault

def message : SyntaxFault → String
  | badCharacter c => "unexpected character " ++ Text.quoteChar c
  | unexpectedEnd => "unexpected end of expression"
  | unexpected text => "unexpected " ++ Text.quote text
  | expectedVariable got => "expected a variable in next(), got " ++ Text.quote got
  | expectedClosing got => "expected ')', got " ++ Text.quote got

end SyntaxFault

structure SyntaxError where
  input : String
  pos : Nat
  fault : SyntaxFault
deriving DecidableEq, Repr

def SyntaxError.message (e : SyntaxError) : String :=
  "expr: " ++ e.fault.message ++ " at position " ++ toString e.pos ++ " in " ++ Text.quote e.input

namespace Token

def isNameStart (c : Char) : Bool := c == '_' || Text.isLetter c

/-- Inside a name there may also be digits and dots. -/
def isNameChar (c : Char) : Bool :=
  c == '_' || c == '.' || Text.isLetter c || Text.isDigit c

/-- Two spellings of each constant are reserved among the names. -/
def wordKind (text : String) : TokenKind :=
  if text = "TRUE" ∨ text = "true" then .truth true
  else if text = "FALSE" ∨ text = "false" then .truth false
  else .name

/-- The kind of the longest token that starts with `c` and goes on into `rest`, and how many
characters of `rest` belong to it. -/
def lexeme (c : Char) (rest : List Char) : Option (TokenKind × Nat) :=
  if isNameStart c then
    let tail := rest.takeWhile isNameChar
    some (wordKind (String.ofList (c :: tail)), tail.length)
  else match c, rest with
    | '1', _ => some (.truth true, 0)
    | '0', _ => some (.truth false, 0)
    | '!', _ => some (.bang, 0)
    | '&', '&' :: _ => some (.connective .and, 1)
    | '&', _ => some (.connective .and, 0)
    | '|', '|' :: _ => some (.connective .or, 1)
    | '|', _ => some (.connective .or, 0)
    | '^', _ => some (.connective .xor, 0)
    | '-', '>' :: _ => some (.connective .imp, 1)
    | '<', '-' :: '>' :: _ => some (.connective .iff, 2)
    | '(', _ => some (.lparen, 0)
    | ')', _ => some (.rparen, 0)
    | _, _ => none

/-- The tokens of a text that starts at position `pos`, with an end marker behind the last one.
Fails at the first character where no token can start. -/
def scan (pos : Nat) : List Char → Except (Nat × SyntaxFault) (List Token)
  | [] => .ok [⟨.finish, "", pos⟩]
  | c :: rest =>
    if Text.isBlank c then scan (pos + 1) rest
    else match lexeme c rest with
      | none => .error (pos, .badCharacter c)
      | some (kind, more) => do
        let tokens ← scan (pos + 1 + more) (rest.drop more)
        return ⟨kind, String.ofList (c :: rest.take more), pos⟩ :: tokens
termination_by cs => cs.length
decreasing_by all_goals simp only [List.length_cons, List.length_drop]; omega

end Token
end SymbolicLtl
