import SymbolicLtl.Automaton.Basic
import SymbolicLtl.Diagram.Cardinality
import SymbolicLtl.Family

/-!
The product of a relation with an automaton, and sets of its states. The product is never built: a
set of product states is one set of system states for each automaton state.
-/
namespace SymbolicLtl

/-- A relation and an automaton over the same variables. -/
structure Product (n : Nat) where
  relation : Relation n
  automaton : Automaton n

/-- A set of system states for each of the first `k` automaton states. -/
abbrev StateSets (n k : Nat) := Family k (Diagram n)

/-- What a search keeps to: sets of system states for the first automaton states, or no limit. -/
abbrev Constraint (n : Nat) := Option (List (Diagram n))

namespace Constraint

variable {n : Nat}

/-- Whether a search may ask for the set of an automaton state. -/
def covers (limit : Constraint n) (q : Nat) : Bool :=
  match limit with
  | none => true
  | some sets => q < sets.length

def setAt (limit : Constraint n) (q : Nat) : Diagram n :=
  match limit with
  | none => .const true
  | some sets => (sets[q]?).getD (.const false)

end Constraint

namespace StateSets

variable {n k : Nat}

/-- The set at an index; outside of the family it is empty. -/
def setAt (v : StateSets n k) (q : Nat) : Diagram n :=
  if h : q < k then v ⟨q, h⟩ else .const false

def none : StateSets n k := .replicate k (.const false)

def isEmpty (v : StateSets n k) : Bool := (List.finRange k).all fun q => (v q).isFalse

def or (a b : StateSets n k) : StateSets n k := .ofFn fun q => (a q).or (b q)

def and (a b : StateSets n k) : StateSets n k := .ofFn fun q => (a q).and (b q)

/-- The unions of sets at the same places. There must be a second set for each first one. -/
def join : (first second : List (Diagram n)) → Except Misuse (List (Diagram n))
  | [], _ => .ok []
  | _ :: _, [] => .error .badIndex
  | a :: as, b :: bs => return a.or b :: (← join as bs)

def missing (v : StateSets n k) : Nat := sumOf (fun q => (v q).rejected) (List.finRange k)

@[simp] theorem setAt_val (v : StateSets n k) (q : Fin k) : v.setAt q = v q := by simp [setAt]

@[simp] theorem get_none (q : Fin k) : (none : StateSets n k) q = .const false :=
  Family.get_replicate _ q

@[simp] theorem get_or (a b : StateSets n k) (q : Fin k) : or a b q = (a q).or (b q) :=
  Family.get_ofFn _ q

@[simp] theorem get_and (a b : StateSets n k) (q : Fin k) : and a b q = (a q).and (b q) :=
  Family.get_ofFn _ q

theorem isEmpty_iff (v : StateSets n k) : v.isEmpty = true ↔ ∀ q, v q = .const false := by
  simp [isEmpty, Diagram.isFalse, Diagram.isConst_iff]

/-- Adding states outside of the sets leaves fewer missing. -/
theorem missing_or_lt {reach new : StateSets n k}
    (fresh : ∀ q ρ, (new q).eval ρ = true → (reach q).eval ρ = false)
    (hne : new.isEmpty = false) : (reach.or new).missing < reach.missing := by
  have hex : ∃ q, new q ≠ .const false := by
    refine Classical.byContradiction fun hno => ?_
    have : new.isEmpty = true := (isEmpty_iff new).mpr fun q =>
      Classical.byContradiction fun h => hno ⟨q, h⟩
    simp_all
  obtain ⟨q, hq⟩ := hex
  obtain ⟨ρ, hρ⟩ := (Diagram.ne_const_iff (new q) true).mp hq
  refine sumOf_lt (fun p _ => ?_) (List.mem_finRange q) ?_
  · simpa using Diagram.rejected_or_le (reach p) (new p)
  · simpa using Diagram.rejected_or_lt (fresh q ρ hρ) hρ

/-- Leaving out some states misses more. -/
theorem missing_lt_of_ne {small large : StateSets n k}
    (h : ∀ q ρ, (small q).eval ρ = true → (large q).eval ρ = true) (hne : small ≠ large) :
    large.missing < small.missing := by
  have hex : ∃ q, small q ≠ large q := by
    refine Classical.byContradiction fun hno => hne (Family.ext fun q => ?_)
    exact Classical.byContradiction fun h => hno ⟨q, h⟩
  obtain ⟨q, hq⟩ := hex
  exact sumOf_lt (fun p _ => Diagram.rejected_le (h p)) (List.mem_finRange q)
    (Diagram.rejected_lt (h q) hq)

end StateSets

namespace Product

variable {n : Nat}

abbrev size (p : Product n) : Nat := p.automaton.size

/-- The initial system states at the initial automaton states. -/
def start (p : Product n) : StateSets n p.size :=
  .ofFn fun q => if p.automaton.initial.contains q then p.relation.init else .const false

end Product
end SymbolicLtl
