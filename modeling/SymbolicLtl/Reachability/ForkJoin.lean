import SymbolicLtl.Reachability.Search

/-!
Breadth-first search whose images are computed by several executors. Each executor has its own copy
of the relation; sets go to it and come back as tables. Which executor takes which image is left
open.
-/
namespace SymbolicLtl

/-- The copies of the relation of a product. -/
structure ForkJoin {n : Nat} (p : Product n) where
  executors : List (Relation n)
  nonempty : executors ≠ []

namespace ForkJoin

variable {n k : Nat} {p : Product n}

/-- For each iteration and each automaton state the executor of its image. -/
abbrev Assignment (fj : ForkJoin p) := Nat → Nat → Fin fj.executors.length

/-- The given number of executors, or one if the number is not positive. -/
def make (p : Product n) (executors : Int) : Except Misuse (ForkJoin p) := do
  let copy ← p.relation.clone n
  return ⟨List.replicate (executors.toNat - 1 + 1) copy, by simp⟩

def inTurn (fj : ForkJoin p) : fj.Assignment := fun _ q =>
  ⟨q % fj.executors.length, Nat.mod_lt _ (List.length_pos_iff.mpr fj.nonempty)⟩

def remoteImage (executor : Relation n) (dir : Direction) (set : Diagram n) :
    Except Misuse (Diagram n) := do
  let received ← (Table.ofDiagram set).toDiagram n
  let image ← executor.image dir received
  (Table.ofDiagram image).toDiagram n

/-- The images of all sets; empty ones are not given to an executor. -/
def images (fj : ForkJoin p) (assign : Nat → Fin fj.executors.length) (dir : Direction)
    (sets : StateSets n k) : Except Misuse (StateSets n k) :=
  Family.collect k fun q =>
    if (sets q).isFalse then .ok (.const false)
    else remoteImage (fj.executors.get (assign q)) dir (sets q)

/-- The states found by images, if there are sets for all of them. -/
def found (p : Product n) (dir : Direction) (constraint : Constraint n) (images : StateSets n k) :
    Option (StateSets n k) :=
  match dir with
  | .forward => if (List.range k).all constraint.covers then some images else none
  | .backward =>
    if (Product.occupiedUpTo images fun q => !p.comesFromSets k constraint q).isSome then none
    else some (p.entries images)

/-- An iteration. It fails when it comes to an automaton state without a set. -/
def step (fj : ForkJoin p) (assign : fj.Assignment) (dir : Direction) (constraint : Constraint n) :
    Stepper n k := fun iteration reach frontier =>
  let (isFaulty, sets) := match dir with
    | .forward =>
      ((Product.occupiedUpTo frontier fun q => !p.leadsToSets k q).isSome, p.sources frontier)
    | .backward => (false, frontier)
  if isFaulty then .error ⟨.badIndex, 0⟩
  else match fj.images (assign iteration) dir sets with
    | .error e => .error ⟨e, 0⟩
    | .ok images =>
      match found p dir constraint images with
      | none => .error ⟨.badIndex, Product.occupied sets⟩
      | some found => .ok ⟨Product.newStates constraint reach found, Product.occupied sets,
          Product.newStates_isFresh constraint reach found⟩

def search (fj : ForkJoin p) (assign : fj.Assignment) (dir : Direction) (start : StateSets n k)
    (constraint : Constraint n) : Search n k :=
  Search.run (fj.step assign dir constraint) start

end ForkJoin
end SymbolicLtl
