/-!
Propositional formulas over the current and next values of named variables, their evaluation and
their two written forms.
-/
namespace SymbolicLtl

/-- The binary connectives, from the tightest binding to the loosest. -/
inductive Connective where
  | and
  | xor
  | or
  | imp
  | iff
deriving DecidableEq, Repr

namespace Connective

def eval : Connective → Bool → Bool → Bool
  | .and, a, b => a && b
  | .or, a, b => a || b
  | .xor, a, b => a != b
  | .imp, a, b => !a || b
  | .iff, a, b => a == b

/-- Connectives of a higher layer bind looser. -/
def layer : Connective → Nat
  | .and => 1
  | .xor => 2
  | .or => 3
  | .imp => 4
  | .iff => 5

def name : Connective → String
  | .and => "And"
  | .or => "Or"
  | .xor => "Xor"
  | .imp => "Imp"
  | .iff => "Iff"

def sign : Connective → String
  | .and => "&"
  | .or => "|"
  | .xor => "^"
  | .imp => "->"
  | .iff => "<->"

end Connective

/-- A formula. `next x` is the value of the variable `x` in the next state. -/
inductive Formula where
  | const (value : Bool)
  | ident (name : String)
  | next (name : String)
  | not (arg : Formula)
  | binary (op : Connective) (left right : Formula)
deriving DecidableEq, Repr

namespace Formula

/-- The value of a formula, given the current and the next value of every name. -/
def eval (current next : String → Bool) : Formula → Bool
  | .const v => v
  | .ident x => current x
  | .next x => next x
  | .not a => !a.eval current next
  | .binary op a b => op.eval (a.eval current next) (b.eval current next)

def hasNext : Formula → Bool
  | .const _ | .ident _ => false
  | .next _ => true
  | .not a => a.hasNext
  | .binary _ a b => a.hasNext || b.hasNext

/-- The names a formula refers to, from left to right with repetitions. -/
def names : Formula → List String
  | .const _ => []
  | .ident x | .next x => [x]
  | .not a => a.names
  | .binary _ a b => a.names ++ b.names

def firstOccurrences (xs : List String) : List String :=
  (xs.foldl (fun kept x => if kept.contains x then kept else x :: kept) []).reverse

/-- The names a formula refers to, in the order of their first occurrence. -/
def identifiers (f : Formula) : List String := firstOccurrences f.names

/-- A formula with a connective at its root needs parentheses as an operand. -/
def isBinary : Formula → Bool
  | .binary .. => true
  | _ => false

def parenthesize (needed : Bool) (text : String) : String :=
  if needed then "(" ++ text ++ ")" else text

def render : Formula → String
  | .const true => "TRUE"
  | .const false => "FALSE"
  | .ident x => x
  | .next x => "next(" ++ x ++ ")"
  | .not a => "!" ++ parenthesize a.isBinary a.render
  | .binary op a b =>
    parenthesize a.isBinary a.render ++ " " ++ op.sign ++ " " ++ parenthesize b.isBinary b.render

/-- The written form in linear temporal logic, where exclusive or is a negated equivalence. -/
def renderLtl : Formula → String
  | .const true => "true"
  | .const false => "false"
  | .ident x => x
  | .next x => "(X " ++ x ++ ")"
  | .not a => "!" ++ a.renderLtl
  | .binary .and a b => "(" ++ a.renderLtl ++ " && " ++ b.renderLtl ++ ")"
  | .binary .or a b => "(" ++ a.renderLtl ++ " || " ++ b.renderLtl ++ ")"
  | .binary .xor a b => "!(" ++ a.renderLtl ++ " <-> " ++ b.renderLtl ++ ")"
  | .binary .imp a b => "(" ++ a.renderLtl ++ " -> " ++ b.renderLtl ++ ")"
  | .binary .iff a b => "(" ++ a.renderLtl ++ " <-> " ++ b.renderLtl ++ ")"

end Formula
end SymbolicLtl
