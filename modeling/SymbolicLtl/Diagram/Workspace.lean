import SymbolicLtl.Diagram.Table

/-!
Several managers of diagrams side by side. A value belongs to the manager that made it, and values
of different managers do not combine. A manager remembers the operations that failed in it.
-/
namespace SymbolicLtl

/-- A family of Boolean functions of the same variables. -/
structure Manager where
  id : Nat
  varnum : Nat
deriving DecidableEq, Repr

/-- A number of variables that no manager can have. -/
structure BadVarnum where
  varnum : Int
deriving DecidableEq, Repr

namespace BadVarnum

def message (e : BadVarnum) : String :=
  s!"bdd: unable to create manager with {e.varnum} variables: bad number of variable ({e.varnum})"

end BadVarnum

namespace Manager

def maxVarnum : Nat := 2097151

/-- A manager has at least one variable. -/
def checkVarnum (varnum : Int) : Except BadVarnum Nat :=
  if 1 ≤ varnum ∧ varnum ≤ maxVarnum then .ok varnum.toNat else .error ⟨varnum⟩

/-- The head of the statistics of a manager. -/
def summary (m : Manager) : List String := ["==============", s!"Varnum:     {m.varnum}"]

end Manager

/-- What went wrong in a manager. -/
inductive Incident where
  | illegalSet
  | renameClash
deriving DecidableEq, Repr

/-- The managers made so far, each with the failures in it, the latest first. -/
structure Workspace where
  incidents : Array (List Incident)
deriving Repr

structure Value where
  owner : Manager
  diagram : Diagram owner.varnum

structure Renamer where
  owner : Manager
  map : Diagram.Renaming owner.varnum

/-- Why two lists of variables are no renaming. -/
inductive RenamingError where
  | unmatchedLength
  | duplicate (var : Int)
  | invalidTarget (var : Int)
  | targetReplaced (var : Int)
deriving DecidableEq, Repr

namespace RenamingError

def message : RenamingError → String
  | unmatchedLength => "bdd: invalid renaming: unmatched length of slices"
  | duplicate v => s!"bdd: invalid renaming: duplicate variable ({v}) in oldvars"
  | invalidTarget v => s!"bdd: invalid renaming: invalid variable in newvars ({v})"
  | targetReplaced v => s!"bdd: invalid renaming: variable in newvars ({v}) also occur in oldvars"

end RenamingError

namespace Diagram.Renaming

variable {n : Nat}

/-- The renaming given by pairs of variables; of several pairs for one variable the first counts. -/
def ofPairs (pairs : List (Nat × Fin n)) : Renaming n where
  image v := match pairs.lookup v with
    | some w => w
    | none => v
  bounded v hv := by split <;> simp_all

def checkPairs (n : Nat) : (seen : List Int) → List (Int × Int) →
    Attempt RenamingError Unit
  | _, [] => return ()
  | seen, (v, w) :: rest => do
    if v < 0 ∨ v ≥ n then throw (.misused .badIndex)
    if seen.contains v then Attempt.refuse (.duplicate v)
    if w ≥ n then Attempt.refuse (.invalidTarget v)
    checkPairs n (v :: seen) rest

/-- Checks that a target keeps its place. -/
def checkTarget (pairs : List (Int × Int)) (w : Int) : Attempt RenamingError Unit := do
  if w < 0 then throw (.misused .badIndex)
  match pairs.lookup w with
  | some u => if u ≠ w then Attempt.refuse (.targetReplaced w)
  | none => return ()

/-- The pairs whose variables exist. -/
def validPairs (n : Nat) (pairs : List (Int × Int)) : List (Nat × Fin n) :=
  pairs.filterMap fun (v, w) =>
    (checkVar n w).toOption.map fun t => (v.toNat, t)

/-- The renaming of the variables `source` to the variables `target`, place by place. -/
def make (n : Nat) (source target : List Int) : Attempt RenamingError (Renaming n) := do
  if source.length ≠ target.length then Attempt.refuse .unmatchedLength
  let pairs := source.zip target
  checkPairs n [] pairs
  target.forM (checkTarget pairs)
  return ofPairs (validPairs n pairs)

end Diagram.Renaming

/-- Operations that may be misused, and that may leave incidents behind even then. -/
abbrev WorkspaceM := ExceptT Misuse (StateM Workspace)

namespace Workspace

def empty : Workspace := ⟨#[]⟩

def create (w : Workspace) (varnum : Int) : Except BadVarnum (Manager × Workspace) := do
  let n ← Manager.checkVarnum varnum
  return (⟨w.incidents.size, n⟩, ⟨w.incidents.push []⟩)

def incidentsOf (w : Workspace) (m : Manager) : List Incident := w.incidents[m.id]?.getD []

/-- The text of failures, the latest first; the text of a clash is not kept. -/
def incidentText (incidents : List Incident) : Option String :=
  if incidents.isEmpty ∨ incidents.contains .renameClash then none
  else some ("; ".intercalate (incidents.map fun _ => "Illegal variable (0) in varset to cache"))

def note (m : Manager) (i : Incident) : WorkspaceM Unit :=
  modify fun w => ⟨w.incidents.modify m.id (i :: ·)⟩

end Workspace

namespace Manager

/-- A value of another manager is not accepted. -/
def own (m : Manager) (v : Value) : Except Misuse (Diagram m.varnum) :=
  if h : v.owner = m then .ok (h ▸ v.diagram) else .error .foreignValue

def value (m : Manager) (d : Diagram m.varnum) : Value := ⟨m, d⟩

def const (m : Manager) (b : Bool) : Value := m.value (.const b)

def literal (m : Manager) (i : Int) (positive : Bool) : Except Misuse Value := do
  return m.value (Diagram.literal (← Diagram.checkVar m.varnum i) positive)

def cube (m : Manager) (lits : List Diagram.Literal) : Except Misuse Value :=
  return m.value (← Diagram.cube lits)

/-- The set of the listed variables. After a failure a manager has no sets but the empty one. -/
def varSet (m : Manager) (vars : List Int) : WorkspaceM Value := do
  let set ← liftM (Diagram.varSet (n := m.varnum) vars)
  if ((← get).incidentsOf m).isEmpty ∨ vars.isEmpty then return m.value set
  else return m.const false

/-- Quantifies the variables that a set stands for. The constant true is the empty set. -/
def exist (m : Manager) (v set : Value) : WorkspaceM Value := do
  if set.diagram.isTrue then return v
  let d ← liftM (m.own v)
  let s ← liftM (m.own set)
  if s.isFalse then
    Workspace.note m .illegalSet
    throw (.failedOperation (Workspace.incidentText ((← get).incidentsOf m)))
  return m.value (d.exist s.highVars)

/-- Carries a value over from another manager. -/
def translocate (m : Manager) (v : Value) : Except Misuse Value :=
  if v.owner = m then return v
  else return m.value (← v.diagram.translocate m.varnum)

def ofTable (m : Manager) (t : Table) : Except Misuse Value :=
  return m.value (← t.toDiagram m.varnum)

def toTable (m : Manager) (v : Value) : Except Misuse Table :=
  return .ofDiagram (← m.own v)

def support (m : Manager) (v : Value) : Except Misuse (List Nat) := return (← m.own v).support

def satCount (m : Manager) (v : Value) : Except Misuse Nat := return (← m.own v).satCount

def renamer (m : Manager) (source target : List Int) : Attempt RenamingError Renamer :=
  return ⟨m, ← Diagram.Renaming.make m.varnum source target⟩

/-- Replaces variables; a clash is noted. -/
def rename (m : Manager) (v : Value) (r : Renamer) : WorkspaceM Value := do
  if h : r.owner = m then
    let d ← liftM (m.own v)
    match d.rename (h ▸ r.map) with
    | .ok d => return m.value d
    | .error e =>
      Workspace.note m .renameClash
      throw e
  else throw .foreignRenamer

end Manager

namespace Value

def not (a : Value) : Value := ⟨a.owner, a.diagram.not⟩

def combine (f : Bool → Bool → Bool) (a b : Value) : Except Misuse Value := do
  return ⟨a.owner, .combine f a.diagram (← a.owner.own b)⟩

/-- Quantifies the variables that a set stands for in a conjunction. Both constants are empty
sets. -/
def andExist (m : Manager) (set a b : Value) : Except Misuse Value := do
  if set.diagram.isTrue then combine (· && ·) a b
  else
    let s ← m.own set
    let x ← m.own a
    let y ← m.own b
    return m.value (Diagram.andExist s.highVars x y)

def equal (a b : Value) : Except Misuse Bool := return a.diagram = (← a.owner.own b)

def implies (a b : Value) : Except Misuse Bool := return a.diagram.implies (← a.owner.own b)

end Value
end SymbolicLtl
