import SymbolicLtl.Log
import SymbolicLtl.Network.Progress

/-!
Runs of a network: all workers are reset, start from the states they own and take steps until none
can. A network can be run again after a run has ended.
-/
namespace SymbolicLtl.Network

variable {n : Nat} {p : Product n} {net : Network p}

/-- Those of the states that a worker owns. -/
def inputOf (net : Network p) (states : StateSets n p.size) (w : net.Id) : Diagram n :=
  (states (net.stateOf w)).and (net.cubes (net.sliceOf w))

/-- The states that a constraint allows at the automaton state of a worker. -/
def limitOf (net : Network p) (constraint : Constraint n) (w : net.Id) : Diagram n :=
  constraint.setAt (net.stateOf w)

namespace Config

def idle (net : Network p) : Config net :=
  ⟨⟨0, some 64⟩, .replicate _ ⟨.returned, .const false, .const true, .zero⟩, .replicate _ []⟩

/-- The first worker whose mailbox still holds states. -/
def leftover? (c : Config net) : Option Misuse :=
  (List.finRange net.size).findSome? fun w =>
    ((c.mailboxes w).find? fun m => !m.isQuit).map fun m =>
      .dataAtReset w (m.describe Table.size)

/-- All workers count as active, in a counter of `bits` bits if it is limited, and mailboxes are
emptied. No states may be left in them. -/
def reset (c : Config net) (bits : Option Nat) : Except Misuse (Config net) :=
  match c.leftover? with
  | some m => .error m
  | none => .ok ⟨Nat.repeat ActiveCounter.inc net.size ⟨0, bits⟩,
      c.workers.map fun s => { s with phase := .returned, tally := .zero }, .replicate _ []⟩

/-- Every worker is given those of the states that it owns, and the limit at its automaton state. -/
def start (c : Config net) (states : StateSets n p.size) (constraint : Constraint n) : Config net :=
  { c with workers := .ofFn fun w =>
      { phase := .starting (Table.ofDiagram (net.inputOf states w))
          (constraint.map fun _ => Table.ofDiagram (net.limitOf constraint w))
        reach := .const false
        restrict := .const true
        tally := (c.workers w).tally } }

def next (dir : Direction) (c : Config net) : Option (Config net) :=
  (List.finRange net.size).findSome? (c.step dir)

/-- Takes steps until no worker has one. -/
def drive (dir : Direction) (c : Config net) : Config net :=
  match _h : c.next dir with
  | none => c
  | some c' => drive dir c'
termination_by (c.unreached, c.pending)
decreasing_by
  obtain ⟨w, _, hw⟩ := List.exists_of_findSome?_eq_some _h
  rcases ahead_of_step hw with hlt | ⟨heq, hlt⟩
  · exact Prod.Lex.left _ _ hlt
  · rw [heq]
    exact Prod.Lex.right _ hlt

def failure? (c : Config net) : Option Misuse :=
  c.workers.toList.findSome? fun s => match s.phase with
    | .crashed m => some m
    | _ => none

/-- The states reached by all workers of each automaton state. They are read from tables. -/
def reached (c : Config net) : Except Misuse (StateSets n p.size) :=
  let results := c.workers.map fun s => Table.ofDiagram s.reach
  Family.collect p.size fun q => (List.finRange net.slices.length).foldlM
    (fun acc s => return acc.or (← (results (net.idOf q s)).toDiagram n)) (.const false)

def tally (c : Config net) : Tally := c.workers.toList.foldl (fun acc s => acc.add s.tally) .zero

def event (c : Config net) (dir : Direction) : Event :=
  .networkRun dir net.size c.tally.images c.tally.sent

end Config

def startSets {k : Nat} (p : Product n) (sets : StateSets n k) :
    Except Misuse (StateSets n p.size) :=
  if h : k = p.size then .ok (h ▸ sets) else .error (.initialSets k p.size)

/-- The states reached from a start in one or more steps, found by all workers together. The
constraint must know all automaton states. -/
def run (net : Network p) (bits : Option Nat) (c : Config net) (dir : Direction)
    (states : StateSets n p.size) (constraint : Constraint n) :
    Except Misuse (StateSets n p.size × Config net) := do
  let c ← c.reset bits
  if !(List.range p.size).all constraint.covers then throw .badIndex
  let c := (c.start states constraint).drive dir
  match c.failure? with
  | some m => throw m
  | none => return (← c.reached, c)

end SymbolicLtl.Network
