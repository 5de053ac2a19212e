import SymbolicLtl.Network.Run
import SymbolicLtl.Reachability.ForkJoin

/-!
Search strategies: the same sets are found by one search, by searches with distributed images, and
by networks of workers. A strategy keeps account of its work.
-/
namespace SymbolicLtl

/-- The networks of a strategy, one for each direction, made when they are first used. -/
structure Networks {n : Nat} (p : Product n) where
  forwardSlices : List Slice
  backwardSlices : List Slice
  forward : Option (Σ net : Network p, net.Config)
  backward : Option (Σ net : Network p, net.Config)

namespace Networks

variable {n : Nat} {p : Product n}

/-- The network of a direction as its last run left it. -/
def get (ns : Networks p) (dir : Direction) : Except Misuse (Σ net : Network p, net.Config) :=
  let (known, slices) := match dir with
    | .forward => (ns.forward, ns.forwardSlices)
    | .backward => (ns.backward, ns.backwardSlices)
  match known with
  | some x => .ok x
  | none => do
    let net ← Network.make p slices
    return ⟨net, .idle net⟩

def set (ns : Networks p) (dir : Direction) (x : Σ net : Network p, net.Config) : Networks p :=
  match dir with
  | .forward => { ns with forward := some x }
  | .backward => { ns with backward := some x }

end Networks

inductive Engine {n : Nat} (p : Product n) where
  | sequential
  | forkJoin (pool : ForkJoin p)
  | messagePassing (networks : Networks p)

structure Strategy {n : Nat} (p : Product n) where
  engine : Engine p
  work : Work
  verbose : Bool

structure UnknownStrategy where
  name : String
deriving DecidableEq, Repr

def UnknownStrategy.message (e : UnknownStrategy) : String :=
  "reach: unknown strategy " ++ Text.quote e.name

/-- What is needed to make a strategy. -/
structure StrategySettings where
  name : String
  forwardSlices : List Slice
  backwardSlices : List Slice
  executors : Int
  verbose : Bool

/-- A search by a strategy: what it found, the strategy after it, the sets after each iteration as
far as there are iterations, and the log. -/
structure Passage {n : Nat} (p : Product n) (k : Nat) where
  result : Except Misuse (StateSets n k)
  strategy : Strategy p
  history : List (StateSets n k)
  events : List Event

namespace Strategy

variable {n k : Nat} {p : Product n}

def sequential (p : Product n) (verbose : Bool) : Strategy p := ⟨.sequential, .zero, verbose⟩

def messagePassing (p : Product n) (forwardSlices backwardSlices : List Slice) (verbose : Bool) :
    Strategy p :=
  ⟨.messagePassing ⟨forwardSlices, backwardSlices, none, none⟩, .zero, verbose⟩

/-- The strategy with a name; without a name it is message passing. -/
def make (p : Product n) (s : StrategySettings) : Attempt UnknownStrategy (Strategy p) :=
  if s.name = "sequential" then return sequential p s.verbose
  else if s.name = messagePassingName ∨ s.name = "" then
    return messagePassing p s.forwardSlices s.backwardSlices s.verbose
  else if s.name = "fork-join" then do
    let pool ← Attempt.ofMisuse (ForkJoin.make p s.executors)
    return ⟨.forkJoin pool, .zero, s.verbose⟩
  else Attempt.refuse ⟨s.name⟩

def name (s : Strategy p) : String :=
  match s.engine with
  | .sequential => "sequential"
  | .forkJoin _ => "fork-join"
  | .messagePassing _ => messagePassingName

/-- Accounts for a search that ran through iterations. -/
def passed (s : Strategy p) (search : Search n k) (event : Nat → Event) : Passage p k where
  result := search.result
  strategy := { s with work := s.work.add ⟨1, search.iterations, search.images, 0⟩ }
  history := search.history
  events := if s.verbose then (List.range search.iterations).map fun k => event (k + 1) else []

/-- The states reached in one or more steps in a direction. -/
def reachable (s : Strategy p) (dir : Direction) (start : StateSets n k)
    (constraint : Constraint n) : Passage p k :=
  match s.engine with
  | .sequential =>
    s.passed (p.search dir start constraint) (match dir with
      | .forward => .postIteration
      | .backward => .preIteration)
  | .forkJoin pool =>
    s.passed (pool.search pool.inTurn dir start constraint) (.forkJoinIteration dir)
  | .messagePassing networks =>
    match networks.get dir with
    | .error m => ⟨.error m, s, [], []⟩
    | .ok ⟨net, config⟩ =>
      if h : k = p.size then
        -- A limited counter with room for the capacity of the network would find the same.
        match net.run none config dir (h ▸ start) constraint with
        | .error m => ⟨.error m, s, [], []⟩
        | .ok (sets, config) =>
          let t := config.tally
          ⟨.ok (h ▸ sets),
            { s with
              engine := .messagePassing (networks.set dir ⟨net, config⟩)
              work := s.work.add ⟨1, t.batches, t.images, t.sent⟩ }, [],
            if s.verbose then [config.event dir] else []⟩
      else ⟨.error (.initialSets k p.size), s, [], []⟩

end Strategy
end SymbolicLtl
