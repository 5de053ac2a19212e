import SymbolicLtl.Diagram.Table
import SymbolicLtl.Word

/-!
Symbolic transition relations. State variable `i` has its current value in diagram variable `2 * i`
and its next value in `2 * i + 1`. A relation is a conjunction of parts, and an image quantifies a
variable as soon as no later part depends on it.
-/
namespace SymbolicLtl

inductive Method where
  /-- All constraints make up one part. -/
  | monolithic
  /-- Every constraint is a part of its own. -/
  | partition
  /-- A number that stands for no method. -/
  | other (code : Int)
deriving DecidableEq, Repr

namespace Method

def ofCode : Int → Method
  | 0 => monolithic
  | 1 => partition
  | code => other code

def code : Method → Int
  | monolithic => 0
  | partition => 1
  | other code => code

def name : Method → String
  | monolithic => "monolithic"
  | partition => "partition"
  | other code => s!"TransMethod({code})"

/-- A text that is the name of no method. -/
structure UnknownName where
  name : String
deriving DecidableEq, Repr

def UnknownName.message (e : UnknownName) : String :=
  "fsm: unknown trans method " ++ Text.quote e.name

def ofName (name : String) : Except UnknownName Method :=
  if name = "monolithic" then .ok monolithic
  else if name = "partition" then .ok partition
  else .error ⟨name⟩

end Method

/-- Along the steps of a system, or against them. -/
inductive Direction where
  | forward
  | backward
deriving DecidableEq, Repr

namespace Direction

/-- Only zero means forward. -/
def ofCode (code : Int) : Direction := if code = 0 then forward else backward

def name : Direction → String
  | forward => "forward"
  | backward => "backward"

end Direction

inductive RelationError where
  | tooFewVariables (varnum : Nat) (numVars : Int)
  | unknownMethod (method : Method)
deriving DecidableEq, Repr

namespace RelationError

def message : RelationError → String
  | tooFewVariables n k =>
    s!"fsm: manager has too few variables: {n} variables for {k} state variables"
  | unknownMethod m => "fsm: unknown trans method " ++ m.name

end RelationError

def currentVar (i : Nat) : Nat := 2 * i

def nextVar (i : Nat) : Nat := 2 * i + 1

/-- A part of a relation, with the variables that are quantified right after it. -/
structure Stage (n : Nat) where
  part : Diagram n
  dropped : List Nat

namespace Stage

variable {n : Nat}

/-- The index of the last part whose variables include `v`, and 0 if there is none. -/
def lastUse (supports : List (List Nat)) (v : Nat) : Nat :=
  supports.zipIdx.foldl (fun last (support, k) => if support.contains v then k else last) 0

/-- Quantifies each variable with the last part that depends on it. -/
def schedule (parts : List (Diagram n)) (vars : List Nat) : List (Stage n) :=
  let supports := parts.map (·.support)
  parts.zipIdx.map fun (p, k) => ⟨p, vars.filter fun v => lastUse supports v == k⟩

/-- Conjoins a set with all parts and quantifies on the way. -/
def apply (stages : List (Stage n)) (set : Diagram n) : Diagram n :=
  stages.foldl (fun acc stage =>
    if acc.isFalse then acc else .andExist stage.dropped acc stage.part) set

end Stage

structure Relation (n : Nat) where
  numVars : Nat
  fits : 2 * numVars ≤ n
  method : Method
  init : Diagram n
  parts : List (Diagram n)
  forward : List (Stage n)
  backward : List (Stage n)
  forward_eq : forward = Stage.schedule parts ((List.range numVars).map currentVar)
  backward_eq : backward = Stage.schedule parts ((List.range numVars).map nextVar)

namespace Relation

variable {n : Nat}

def ofParts (numVars : Nat) (fits : 2 * numVars ≤ n) (method : Method) (init : Diagram n)
    (parts : List (Diagram n)) : Relation n where
  numVars := numVars
  fits := fits
  method := method
  init := init
  parts := parts
  forward := Stage.schedule parts ((List.range numVars).map currentVar)
  backward := Stage.schedule parts ((List.range numVars).map nextVar)
  forward_eq := rfl
  backward_eq := rfl

/-- The parts that a method makes of constraints; there is always one. -/
def partsOf (method : Method) (constraints : List (Diagram n)) :
    Except RelationError (List (Diagram n)) :=
  match method with
  | .monolithic => .ok [constraints.foldl .and (.const true)]
  | .partition =>
    match constraints.filter fun c => !c.isTrue with
    | [] => .ok [.const true]
    | parts => .ok parts
  | .other code => .error (.unknownMethod (.other code))

/-- The relation given by constraints on current and next values. The variables are counted in words
of 64 bits, and a count that goes round is noticed last. -/
def make (numVars : Int) (init : Diagram n) (constraints : List (Diagram n)) (method : Method) :
    Attempt RelationError (Relation n) := do
  if n < wordOf (2 * numVars) then Attempt.refuse (.tooFewVariables n numVars)
  let parts ← Attempt.ofRefusal (partsOf method constraints)
  if h : 0 ≤ numVars ∧ 2 * numVars ≤ n then
    return ofParts numVars.toNat (by omega) method init parts
  else throw (.misused .badIndex)

/-- Reads current values where there are next ones. -/
def toNext (r : Relation n) : Diagram.Renaming n where
  image v := if v < 2 * r.numVars ∧ v % 2 = 0 then v + 1 else v
  bounded v hv := by have := r.fits; split <;> omega

/-- Reads next values where there are current ones. -/
def toCurrent (r : Relation n) : Diagram.Renaming n where
  image v := if v < 2 * r.numVars ∧ v % 2 = 1 then v - 1 else v
  bounded v hv := by split <;> omega

def postImage (r : Relation n) (s : Diagram n) : Diagram n :=
  if s.isFalse then s else (Stage.apply r.forward s).relabel r.toCurrent

/-- The predecessors of a set of states. A set that constrains the current and the next value of a
variable together is no set of states. -/
def preImage (r : Relation n) (s : Diagram n) : Except Misuse (Diagram n) :=
  if s.isFalse then .ok s else return Stage.apply r.backward (← s.rename r.toNext)

def image (r : Relation n) (dir : Direction) (s : Diagram n) : Except Misuse (Diagram n) :=
  match dir with
  | .forward => .ok (r.postImage s)
  | .backward => r.preImage s

/-- The number of states in a set. All other variables are free in it. -/
def stateCount (r : Relation n) (s : Diagram n) : Nat := s.satCount / Nat.pow 2 (n - r.numVars)

/-- The same relation among the functions of `m` variables. -/
def clone (r : Relation n) (m : Nat) : Except Misuse (Relation m) := do
  let parts ← r.parts.mapM (·.translocate m)
  let init ← r.init.translocate m
  match make r.numVars init parts .partition with
  | .ok copy => return { copy with method := r.method }
  | .error (.refused e) => throw (.cloneFailed e.message)
  | .error (.misused e) => throw e

end Relation
end SymbolicLtl
