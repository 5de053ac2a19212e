import SymbolicLtl.Formula.Scope
import SymbolicLtl.Json.Fields
import SymbolicLtl.Relation.Basic

/-! Models: finite systems of Boolean variables, with a property. -/
namespace SymbolicLtl

/-- A system whose states are valuations of its variables. A variable without an assignment in
`next` and without a constraint in `trans` changes freely. -/
structure Model where
  vars : List String := []
  init : String := ""
  next : List (String × String) := []
  trans : List String := []
  defines : List (String × String) := []
  fairness : List String := []
  ltlspec : String := ""
deriving DecidableEq, Repr

inductive ModelError where
  | unreadable (error : DecodeError)
  | noVariables
  | invalidName (name : String)
  | repeatedVariable (name : String)
  | undeclaredNext (name : String)
  | badDefine (name : String) (error : SyntaxError)
  | initRefersToNext
  | badInit (error : FormulaError)
  | badNext (name : String) (error : FormulaError)
  | badTrans (index : Nat) (error : FormulaError)
  | badFormula (list : String) (index : Nat) (error : SyntaxError)
  | noTrans (index : Int)
  | scope (error : ScopeError)
  | relation (error : RelationError)
deriving DecidableEq, Repr

namespace ModelError

/-- What is wrong with the model itself, if that is what is wrong. -/
def reason? : ModelError → Option String
  | unreadable e => some e.message
  | noVariables => some "no variables"
  | invalidName name => some ("invalid variable name " ++ Text.quote name)
  | repeatedVariable name => some ("variable " ++ name ++ " declared twice")
  | undeclaredNext name => some ("next assignment of undeclared variable " ++ name)
  | badDefine name e => some ("define " ++ name ++ ": " ++ e.message)
  | initRefersToNext => some "init refers to next state values"
  | badInit e => some ("init: " ++ e.message)
  | badNext name e => some ("next(" ++ name ++ "): " ++ e.message)
  | badTrans k e => some ("trans " ++ toString k ++ ": " ++ e.message)
  | badFormula list k e => some (list ++ " " ++ toString k ++ ": " ++ e.message)
  | noTrans k => some ("no trans constraint " ++ toString k)
  | scope _ | relation _ => none

def message (e : ModelError) : String :=
  match e, e.reason? with
  | _, some reason => "fsm: invalid model: " ++ reason
  | scope e, none => e.message
  | relation e, none => e.message
  | _, none => ""

def isInvalid (e : ModelError) : Bool := e.reason?.isSome

end ModelError

namespace Model

/-- Variables have names, and each its own. -/
def checkNames : (seen : List String) → List String → Except ModelError Unit
  | _, [] => .ok ()
  | seen, v :: rest =>
    if v = "" ∨ v = "next" then .error (.invalidName v)
    else if v ∈ seen then .error (.repeatedVariable v)
    else checkNames (v :: seen) rest

def validate (m : Model) : Except ModelError Unit := do
  if m.vars.isEmpty then throw .noVariables
  checkNames [] m.vars
  match m.next.find? fun e => !m.vars.contains e.1 with
  | some e => throw (.undeclaredNext e.1)
  | none => return ()

/-- The number of diagram variables for the current and the next values. -/
def varnum (m : Model) : Nat := 2 * m.vars.length

def parseAll (list : String) (texts : List String) : Except ModelError (List Formula) :=
  texts.zipIdx.mapM fun (text, k) => (Formula.parse text).mapError (.badFormula list k)

def fairnessFormulas (m : Model) : Except ModelError (List Formula) :=
  parseAll "fairness" m.fairness

def transFormulas (m : Model) (indexes : List Int) : Except ModelError (List Formula) := do
  let texts ← indexes.mapM fun k =>
    match if k < 0 then none else m.trans[k.toNat]? with
    | some text => .ok text
    | none => .error (.noTrans k)
  parseAll "trans" texts

/-- The names of a model: its variables in their order, then its abbreviations. -/
def scope (m : Model) : Except ModelError Scope := do
  let s ← (Scope.ofVars m.vars).mapError .scope
  m.defines.foldlM (fun s (name, text) => do
    let f ← (Formula.parse text).mapError (.badDefine name)
    (s.define name f).mapError .scope) s

def initialSet (m : Model) (n : Nat) (s : Scope) : Attempt ModelError (Diagram n) := do
  if m.init = "" then return .const true
  let f ← Attempt.ofRefusal ((Formula.parse m.init).mapError fun e => .badInit (.malformed e))
  if f.hasNext then Attempt.refuse .initRefersToNext
  (s.compile f).restate fun e => .badInit (.meaningless e)

/-- The constraint of an assignment: the next value of variable `i` is the value of a formula. -/
def assignment {n : Nat} (s : Scope) (i : Nat) (name text : String) :
    Attempt ModelError (Diagram n) := do
  let value ← (s.compileText text).restate (.badNext name)
  let v ← Attempt.ofMisuse (Diagram.checkVar n (nextVar i))
  return (Diagram.var v).iff value

/-- The constraints of the assignments, by variable, then the other constraints. -/
def constraints (m : Model) (n : Nat) (s : Scope) : Attempt ModelError (List (Diagram n)) := do
  let assignments ← m.vars.zipIdx.filterMapM fun (name, i) =>
    match m.next.lookup name with
    | some text => return some (← assignment s i name text)
    | none => return none
  let others ← m.trans.zipIdx.mapM fun (text, k) => (s.compileText text).restate (.badTrans k)
  return assignments ++ others

/-- The transition relation of a model over `n` diagram variables, and its names. -/
def build (m : Model) (n : Nat) (method : Method) : Attempt ModelError (Relation n × Scope) := do
  let s ← Attempt.ofRefusal m.scope
  let init ← m.initialSet n s
  let parts ← m.constraints n s
  let r ← (Relation.make m.vars.length init parts method).restate .relation
  return (r, s)

end Model
end SymbolicLtl
