import SymbolicLtl.Relation.Basic

/-!
Büchi automata whose edges carry sets of system states. An edge may be taken from a system state in
its label.
-/
namespace SymbolicLtl

structure Edge (n k : Nat) where
  source : Fin k
  target : Fin k
  label : Diagram n

/-- A Büchi automaton. Edges stand in the order in which they were added, and so do the initial and
the accepting states. -/
structure Automaton (n : Nat) where
  size : Nat
  edges : List (Edge n size)
  initial : List (Fin size)
  accepting : List (Fin size)

namespace Automaton

variable {n : Nat}

def ofSize (n size : Nat) : Automaton n := ⟨size, [], [], []⟩

/-- An automaton without edges. The lists of edges, one for each state, must fit into memory. -/
def new (n : Nat) (size : Int) : Except Misuse (Automaton n) :=
  match listLength? 24 size with
  | some size => .ok (ofSize n size)
  | none => .error .badIndex

def checkState (a : Automaton n) (q : Int) : Except Misuse (Fin a.size) :=
  if h : 0 ≤ q ∧ q < a.size then .ok ⟨q.toNat, by omega⟩ else .error (.stateOutOfRange q a.size)

def addEdge (a : Automaton n) (source target : Int) (label : Diagram n) :
    Except Misuse (Automaton n) := do
  let s ← a.checkState source
  let t ← a.checkState target
  return { a with edges := a.edges ++ [⟨s, t, label⟩] }

def addInitial (a : Automaton n) (q : Int) : Except Misuse (Automaton n) := do
  let q ← a.checkState q
  return { a with initial := a.initial ++ [q] }

def addAccepting (a : Automaton n) (q : Int) : Except Misuse (Automaton n) := do
  let q ← a.checkState q
  return { a with accepting := a.accepting ++ [q] }

def states (a : Automaton n) : List (Fin a.size) := List.finRange a.size

/-- The initial states in increasing order, each once. -/
def initialStates (a : Automaton n) : List (Fin a.size) := a.states.filter a.initial.contains

def acceptingStates (a : Automaton n) : List (Fin a.size) := a.states.filter a.accepting.contains

def isAccepting (a : Automaton n) (q : Int) : Bool := a.accepting.any fun r => (r.val : Int) == q

/-- The edges that leave a state, in the order in which they were added. -/
def outgoing (a : Automaton n) (q : Nat) : List (Edge n a.size) :=
  a.edges.filter fun e => e.source.val == q

/-- The edges that enter a state, in the order in which they were added. -/
def incoming (a : Automaton n) (q : Nat) : List (Edge n a.size) :=
  a.edges.filter fun e => e.target.val == q

/-- Numbers between brackets, with blanks between them. -/
def bracketed (xs : List Nat) : String := "[" ++ " ".intercalate (xs.map toString) ++ "]"

def describe (a : Automaton n) : String :=
  "Buchi\x7bstates: " ++ toString a.size ++ ", edges: " ++ toString a.edges.length ++ ", init: " ++
    bracketed (a.initialStates.map (·.val)) ++ ", accepting: " ++
    bracketed (a.acceptingStates.map (·.val)) ++ "\x7d"

/-- The automaton with its labels carried over to `m` variables. The edges of the copy are ordered
by their source. -/
def translocate (a : Automaton n) (m : Nat) : Except Misuse (Automaton m) := do
  let edges ← ((List.range a.size).flatMap a.outgoing).mapM fun e => do
    return ⟨e.source, e.target, ← e.label.translocate m⟩
  return ⟨a.size, edges, a.initial, a.accepting⟩

/-- Accepts the runs that read 11 in the two lowest bits of a counter right after reading 00 one or
more times. -/
def counter (n : Nat) : Except Misuse (Automaton n) := do
  let bit0 := Diagram.var (← Diagram.checkVar n (currentVar 0))
  let bit1 := Diagram.var (← Diagram.checkVar n (currentVar 1))
  let a := ofSize n 3
  let a ← a.addEdge 0 0 (bit0.or bit1)
  let a ← a.addEdge 0 1 (bit0.not.and bit1.not)
  let a ← a.addEdge 1 0 (bit0.xor bit1)
  let a ← a.addEdge 1 1 (bit0.not.and bit1.not)
  let a ← a.addEdge 1 2 (bit0.and bit1)
  let a ← a.addEdge 2 2 (.const true)
  let a ← a.addInitial 0
  a.addAccepting 2

end Automaton
end SymbolicLtl
