import SymbolicLtl.Formula.Scope

/-!
Operator trees whose operators may have any number of operands and need not be known. Those with
the right operands are formulas; the others still have written forms, as far as these go.
-/
namespace SymbolicLtl

/-- An operator of a sketch; one that is not known has a number. -/
inductive Operator where
  | not
  | connective (op : Connective)
  | unknown (code : Int)
deriving DecidableEq, Repr

namespace Operator

def kindNames : List String :=
  ["Ident", "Const", "Not", "And", "Or", "Xor", "Imp", "Iff", "Next"]

def kindName (code : Int) : String :=
  match if code < 0 then none else kindNames[code.toNat]? with
  | some name => name
  | none => s!"Op({code})"

def ofCode : Int → Operator
  | 2 => not
  | 3 => connective .and
  | 4 => connective .or
  | 5 => connective .xor
  | 6 => connective .imp
  | 7 => connective .iff
  | code => unknown code

def ofName (name : String) : Operator := ofCode (kindNames.idxOf name)

end Operator

/-- A tree of operators over names and constants. -/
inductive Sketch where
  | const (value : Bool)
  | ident (name : String)
  | next (name : String)
  | node (op : Operator) (args : List Sketch)
deriving Inhabited, Repr

namespace Sketch

mutual

def hasNext : Sketch → Bool
  | .const _ | .ident _ => false
  | .next _ => true
  | .node _ args => anyNext args

def anyNext : List Sketch → Bool
  | [] => false
  | a :: rest => a.hasNext || anyNext rest

end

mutual

def names : Sketch → List String
  | .const _ => []
  | .ident x | .next x => [x]
  | .node _ args => allNames args

def allNames : List Sketch → List String
  | [] => []
  | a :: rest => a.names ++ allNames rest

end

def identifiers (s : Sketch) : List String := Formula.firstOccurrences s.names

/-- Only trees of connectives need parentheses as operands. -/
def isCompound : Sketch → Bool
  | .node .not _ => false
  | .node _ _ => true
  | _ => false

/-- The text between operands. An unknown operator has none. -/
def separator : Operator → String
  | .connective op => " " ++ op.sign ++ " "
  | _ => ""

mutual

/-- The written form. A negation needs an operand. -/
def render : Sketch → Except Misuse String
  | .const true => return "TRUE"
  | .const false => return "FALSE"
  | .ident x => return x
  | .next x => return "next(" ++ x ++ ")"
  | .node .not [] => throw .badIndex
  | .node .not (a :: _) => return "!" ++ Formula.parenthesize a.isCompound (← a.render)
  | .node op args => return (separator op).intercalate (← renderAll args)

def renderAll : List Sketch → Except Misuse (List String)
  | [] => return []
  | a :: rest => do
    let text ← a.render
    return Formula.parenthesize a.isCompound text :: (← renderAll rest)

end

/-- The written form in linear temporal logic. Operands beyond the second are left out. -/
def renderLtl : Sketch → Except Misuse String
  | .const true => return "true"
  | .const false => return "false"
  | .ident x => return x
  | .next x => return "(X " ++ x ++ ")"
  | .node .not (a :: _) => return "!" ++ (← a.renderLtl)
  | .node (.connective op) (a :: b :: _) => do
    let left ← a.renderLtl
    let right ← b.renderLtl
    return match op with
      | .and => "(" ++ left ++ " && " ++ right ++ ")"
      | .or => "(" ++ left ++ " || " ++ right ++ ")"
      | .xor => "!(" ++ left ++ " <-> " ++ right ++ ")"
      | .imp => "(" ++ left ++ " -> " ++ right ++ ")"
      | .iff => "(" ++ left ++ " <-> " ++ right ++ ")"
  | .node (.connective _) [a] => do
    let _ ← a.renderLtl
    throw .badIndex
  | .node (.unknown code) _ => throw (.unknownOperator code)
  | .node .not [] | .node (.connective _) [] => throw .badIndex

def apply {n : Nat} : Operator → List (Diagram n) → Attempt ScopeError (Diagram n)
  | .not, a :: _ => return a.not
  | .connective op, a :: b :: _ => return .combine op.eval a b
  | .unknown code, _ => Attempt.refuse (.unknownOperator code)
  | _, _ => throw (.misused .badIndex)

mutual

/-- The function of a sketch in a scope. All operands are looked at before the operator is. -/
def compile {n : Nat} (s : Scope) : Sketch → Attempt ScopeError (Diagram n)
  | .const v => s.compile (.const v)
  | .ident x => s.compile (.ident x)
  | .next x => s.compile (.next x)
  | .node op args => do apply op (← compileAll s args)

def compileAll {n : Nat} (s : Scope) : List Sketch → Attempt ScopeError (List (Diagram n))
  | [] => return []
  | a :: rest => do
    let d ← a.compile s
    return d :: (← compileAll s rest)

end

end Sketch

def Formula.toSketch : Formula → Sketch
  | .const v => .const v
  | .ident x => .ident x
  | .next x => .next x
  | .not a => .node .not [a.toSketch]
  | .binary op a b => .node (.connective op) [a.toSketch, b.toSketch]

end SymbolicLtl
