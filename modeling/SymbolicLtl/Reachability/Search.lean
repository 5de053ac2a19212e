import SymbolicLtl.Reachability.StateSets

/-!
Breadth-first search of the product, one image for each automaton state and iteration. The states
found are those reached in one or more steps.
-/
namespace SymbolicLtl

/-- What one iteration adds to the sets reached before, and how many images it took. -/
structure Round {n k : Nat} (reach : StateSets n k) where
  fresh : StateSets n k
  images : Nat
  isFresh : ∀ q ρ, (fresh q).eval ρ = true → (reach q).eval ρ = false

/-- An iteration that failed, and how many images were begun in it. -/
structure FailedRound where
  misuse : Misuse
  images : Nat
deriving Repr

/-- One iteration: its number, the sets reached so far and the states that are new in them. -/
abbrev Stepper (n k : Nat) :=
  Nat → (reach frontier : StateSets n k) → Except FailedRound (Round reach)

structure Search (n k : Nat) where
  /-- The sets in which the search ended. -/
  result : Except Misuse (StateSets n k)
  /-- The sets reached after each complete iteration. -/
  history : List (StateSets n k)
  iterations : Nat
  images : Nat

namespace Search

variable {n k : Nat}

def preceded (s : Search n k) (reach : StateSets n k) (images : Nat) : Search n k :=
  { s with
    history := reach :: s.history
    iterations := s.iterations + 1
    images := s.images + images }

/-- Joining what is new gets nearer to the end of a search. -/
theorem round_lt {reach : StateSets n k} (round : Round reach) {frontier : StateSets n k}
    (h : ¬ frontier.isEmpty = true) :
    (2 * (reach.or round.fresh).missing + if round.fresh.isEmpty then 0 else 1) <
      2 * reach.missing + if frontier.isEmpty then 0 else 1 := by
  by_cases hf : round.fresh.isEmpty
  · have : reach.or round.fresh = reach := by
      refine Family.ext fun q => ?_
      rw [StateSets.get_or, (StateSets.isEmpty_iff _).mp hf q]
      exact Diagram.ext fun ρ => by simp
    simp [hf, this, h]
  · have := StateSets.missing_or_lt round.isFresh (by simpa using hf)
    simp [hf, h]
    omega

/-- Iterates until nothing is new. -/
def saturate (step : Stepper n k) (iteration : Nat) (reach frontier : StateSets n k) :
    Search n k :=
  if _h : frontier.isEmpty then ⟨.ok reach, [], 0, 0⟩
  else match step iteration reach frontier with
    | .error e => ⟨.error e.misuse, [], 1, e.images⟩
    | .ok round =>
      (saturate step (iteration + 1) (reach.or round.fresh) round.fresh).preceded
        (reach.or round.fresh) round.images
termination_by 2 * reach.missing + if frontier.isEmpty then 0 else 1
decreasing_by exact round_lt round _h

def run (step : Stepper n k) (start : StateSets n k) : Search n k :=
  saturate step 1 .none start

end Search

namespace Product

variable {n k : Nat}

def sources (p : Product n) (frontier : StateSets n k) : StateSets n k :=
  .ofFn fun q => (p.automaton.incoming q).foldl
    (fun acc e => acc.or ((frontier.setAt e.source).and e.label)) (.const false)

/-- The system states in which an edge out of each automaton state may be taken into its images. -/
def entries (p : Product n) (images : StateSets n k) : StateSets n k :=
  .ofFn fun q => (p.automaton.outgoing q).foldl
    (fun acc e => acc.or ((images.setAt e.target).and e.label)) (.const false)

/-- What is new among the states found, as far as the constraint allows them. -/
def newStates (constraint : Constraint n) (reach found : StateSets n k) : StateSets n k :=
  .ofFn fun q => ((found q).and (constraint.setAt q)).diff (reach q)

theorem newStates_isFresh (constraint : Constraint n) (reach found : StateSets n k) (q : Fin k)
    (ρ : Nat → Bool) (h : (newStates constraint reach found q).eval ρ = true) :
    (reach q).eval ρ = false := by
  simp [newStates] at h
  exact h.2

def occupied (v : StateSets n k) : Nat := v.toList.countP fun d => !d.isFalse

/-- The number of sets that are not empty, up to the first of them that is at fault; none if none
of them is. -/
def occupiedUpTo (v : StateSets n k) (isFaulty : Fin k → Bool) : Option Nat :=
  ((List.finRange k).find? fun q => !(v q).isFalse && isFaulty q).map fun last =>
    (List.finRange k).countP fun q => decide (q ≤ last) && !(v q).isFalse

/-- The automaton state has edges, and all that leave it lead to one of the sets. -/
def leadsToSets (p : Product n) (k q : Nat) : Bool :=
  q < p.size && (p.automaton.outgoing q).all fun e => e.target < k

/-- The automaton state has edges, and all that enter it come from one of the sets and from one that
the constraint knows. -/
def comesFromSets (p : Product n) (k : Nat) (constraint : Constraint n) (q : Nat) : Bool :=
  q < p.size && (p.automaton.incoming q).all fun e => e.source < k && constraint.covers e.source

/-- What an iteration adds, given the states in which edges are taken. -/
def roundOf (p : Product n) (constraint : Constraint n) (reach sources : StateSets n k) :
    Round reach :=
  ⟨newStates constraint reach (sources.map p.relation.postImage), occupied sources,
    newStates_isFresh constraint reach _⟩

def forwardRound (p : Product n) (constraint : Constraint n) (reach frontier : StateSets n k) :
    Round reach := p.roundOf constraint reach (p.sources frontier)

/-- An iteration along the edges. It fails when it comes to an automaton state without a set. -/
def forwardStep (p : Product n) (constraint : Constraint n) : Stepper n k :=
  fun _ reach frontier =>
    if (occupiedUpTo frontier fun q => !p.leadsToSets k q).isSome then .error ⟨.badIndex, 0⟩
    else
      let sources := p.sources frontier
      match occupiedUpTo sources fun q => !constraint.covers q with
      | some images => .error ⟨.badIndex, images⟩
      | none => .ok (p.roundOf constraint reach sources)

/-- The predecessors of a set. They need sets to go to. -/
def enteringImage (p : Product n) (constraint : Constraint n) (frontier : StateSets n k)
    (q : Fin k) : Except Misuse (Diagram n) := do
  let image ← p.relation.preImage (frontier q)
  if image.isFalse || p.comesFromSets k constraint q then return image else throw .badIndex

/-- An iteration against the edges: labels hold in the states that are entered. -/
def backwardStep (p : Product n) (constraint : Constraint n) : Stepper n k :=
  fun _ reach frontier =>
    match Family.collect k (p.enteringImage constraint frontier) with
    | .error e =>
      .error ⟨e, (occupiedUpTo frontier fun q => !(p.enteringImage constraint frontier q).isOk).getD 0⟩
    | .ok images =>
      .ok ⟨newStates constraint reach (p.entries images), occupied frontier,
        newStates_isFresh constraint reach _⟩

/-- The states reached in one or more steps in a direction, with every state that is reached in
the constraint. -/
def search (p : Product n) (dir : Direction) (start : StateSets n k) (constraint : Constraint n) :
    Search n k :=
  match dir with
  | .forward => Search.run (p.forwardStep constraint) start
  | .backward => Search.run (p.backwardStep constraint) start

end Product
end SymbolicLtl
