import SymbolicLtl.Relation.Basic

/-! What happens during a check, as it is logged. -/
namespace SymbolicLtl

/-- Work done by a search strategy. -/
structure Work where
  runs : Nat
  iterations : Nat
  images : Nat
  messages : Nat
deriving DecidableEq, Repr

namespace Work

def zero : Work := ⟨0, 0, 0, 0⟩

def add (a b : Work) : Work :=
  ⟨a.runs + b.runs, a.iterations + b.iterations, a.images + b.images, a.messages + b.messages⟩

end Work

/-- The name of the strategy whose work depends on how its workers are scheduled. -/
def messagePassingName : String := "message-passing"

structure Statistic where
  strategy : String
  fairIterations : Nat
  work : Work
deriving DecidableEq, Repr

inductive Event where
  | postIteration (k : Nat)
  | preIteration (k : Nat)
  | forkJoinIteration (dir : Direction) (k : Nat)
  | networkRun (dir : Direction) (workers images messages : Nat)
  | forwardDone
  | fairIteration (k : Nat)
  | fairFound (iterations : Nat)
  | safetyIteration (k : Nat)
  | translating (formula : String)
  | translated (program formula : String)
  | automaton (states edges : Nat)
  | statistic (s : Statistic)
  | served (method : String) (error : Option String)
deriving DecidableEq, Repr

/-- How a log writes what is not determined by the input: time spans, and amounts of work that
depend on the schedule of workers. -/
structure LogStyle where
  elapsed : String
  scheduled : Nat → String

namespace Event

def text (style : LogStyle) : Event → String
  | postIteration k => s!"reach: post iteration {k}"
  | preIteration k => s!"reach: pre iteration {k}"
  | forkJoinIteration dir k => "reach: fork-join " ++ dir.name ++ s!" iteration {k}"
  | networkRun dir workers images messages =>
    "worker: " ++ dir.name ++ s!" run on {workers} workers in " ++ style.elapsed ++ ", " ++
      style.scheduled images ++ " images, " ++ style.scheduled messages ++ " messages"
  | forwardDone => "checking: forward reachability done in " ++ style.elapsed
  | fairIteration k => s!"checking: fair iteration {k}"
  | fairFound k =>
    "checking: fair states found in " ++ style.elapsed ++ s!" after {k} iterations"
  | safetyIteration k => s!"checking: safety iteration {k}"
  | translating formula => "psmc: translating " ++ formula
  | translated program formula =>
    "ltl: " ++ program ++ " translated " ++ formula ++ " in " ++ style.elapsed
  | automaton states edges => s!"psmc: automaton with {states} states and {edges} edges"
  | statistic s =>
    let amount := if s.strategy = messagePassingName then style.scheduled else toString
    "psmc: \x7bStrategy:" ++ s.strategy ++ " PostReachable:" ++ style.elapsed ++ " FairCycle:" ++
      style.elapsed ++ " FairIterations:" ++ toString s.fairIterations ++ " Reach:\x7bRuns:" ++
      toString s.work.runs ++ " Iterations:" ++ amount s.work.iterations ++ " Images:" ++
      amount s.work.images ++ " Messages:" ++ amount s.work.messages ++ "\x7d\x7d"
  | served method error =>
    "service: " ++ method ++ " done in " ++ style.elapsed ++ ", err: " ++ error.getD "<nil>"

end Event
end SymbolicLtl
