import SymbolicLtl.Text.Quoted

/-! Calls outside of what a function accepts, and the failures of functions that may also refuse. -/
namespace SymbolicLtl

/-- A request that no caller should make. -/
inductive Misuse where
  /-- An index outside of a list, or a negative length. -/
  | badIndex
  /-- A renaming that gives two tests on a path the same variable. -/
  | renameClash
  | unknownOperator (code : Int)
  | variableOutOfRange (var : Int) (varnum : Nat)
  | foreignValue
  | foreignRenamer
  | foreignRelation
  /-- Quantification over the variables of the constant false, with the texts of all failures of the
  same manager as far as they are known. -/
  | failedOperation (text : Option String)
  | laterNode (index : Nat)
  | cloneFailed (reason : String)
  | stateOutOfRange (state : Int) (states : Nat)
  | counterBelowZero (value : Int)
  | counterIdle (value : Int)
  | initialSets (given states : Nat)
  | dataAtReset (worker : Nat) (message : String)
  | quitWhileActive (worker : Nat)
  | outsideSlice (worker : Nat) (slice : String)
deriving DecidableEq, Repr

namespace Misuse

def message : Misuse → Option String
  | badIndex | renameClash => none
  | unknownOperator code => some s!"expr: unknown operator Op({code})"
  | variableOutOfRange v n => some s!"bdd: variable {v} out of range [0, {n})"
  | foreignValue => some "bdd: value belongs to another manager"
  | foreignRenamer => some "bdd: renamer belongs to another manager"
  | foreignRelation => some "psmc: the transition relation belongs to another manager"
  | failedOperation text => text.map ("bdd: operation failed: " ++ ·)
  | laterNode i => some s!"bdd: malformed diagram, node {i} refers to a later node"
  | cloneFailed reason => some ("fsm: unable to clone transition relation: " ++ reason)
  | stateOutOfRange s n => some s!"automata: state {s} out of range [0, {n})"
  | counterBelowZero v => some s!"worker: active counter below zero: {v}"
  | counterIdle v => some s!"worker: active counter reached {v} while a worker is active"
  | initialSets m n => some s!"worker: {m} initial sets for {n} automaton states"
  | dataAtReset w msg => some s!"worker {w}: unexpected message during reset: {msg}"
  | quitWhileActive w => some s!"worker {w}: quit received while active"
  | outsideSlice w slice => some s!"worker {w}: received states outside of slice {slice}"

end Misuse

/-- Why a function gave no result: it refused its input, or was misused. -/
inductive Failure (ε : Type) where
  | refused (error : ε)
  | misused (misuse : Misuse)
deriving Repr

namespace Failure

def map {ε δ : Type} (f : ε → δ) : Failure ε → Failure δ
  | refused e => refused (f e)
  | misused m => misused m

end Failure

/-- A computation that may refuse its input or be misused. -/
abbrev Attempt (ε α : Type) := Except (Failure ε) α

namespace Attempt

def refuse {ε α : Type} (e : ε) : Attempt ε α := .error (.refused e)

def ofMisuse {ε α : Type} (r : Except Misuse α) : Attempt ε α := r.mapError .misused

def ofRefusal {ε α : Type} (r : Except ε α) : Attempt ε α := r.mapError .refused

def restate {ε δ α : Type} (f : ε → δ) (r : Attempt ε α) : Attempt δ α := r.mapError (·.map f)

end Attempt
end SymbolicLtl
