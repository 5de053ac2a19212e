import SymbolicLtl.Diagram.Workspace
import SymbolicLtl.Emptiness.Checker
import SymbolicLtl.Model.Basic
import SymbolicLtl.Translator.Basic
import SymbolicLtl.Verifier.Settings

/-!
The whole check of a model: its relation is built, the negated property is translated, and the
product is checked for emptiness.
-/
namespace SymbolicLtl

inductive RunError where
  | emptySpec
  | model (error : ModelError)
  | varnum (error : BadVarnum)
  | translator (error : TranslatorError)
  | sliceIndex (index : Int)
  | slices (error : SliceError)
  | strategy (error : UnknownStrategy)
deriving Repr

namespace RunError

def message : RunError → String
  | emptySpec => "psmc: model has no ltlspec"
  | model e => e.message
  | varnum e => e.message
  | translator e => e.message
  | sliceIndex i => "psmc: no state variable " ++ toString i ++ " to slice on"
  | slices e => e.message
  | strategy e => e.message

end RunError

/-- What became of a check: its answer, the formula that a translator was asked for, and the log. -/
structure Report where
  result : Attempt RunError Response
  asked : Option String
  events : List Event

/-- The formulas that come with an answer or a refusal. A check that is stopped gives none. -/
def Report.formulas (r : Report) : List String :=
  match r.result with
  | .error (.misused _) => []
  | .ok _ | .error (.refused _) => r.asked.toList

structure Prepared where
  varnum : Nat
  relation : Relation varnum
  scope : Scope
  /-- The negated property. -/
  formula : String

namespace Settings

/-- The slices over the current values of the state variables with the given indexes. -/
def slicesOn (numVars : Nat) (indexes : List Int) : Except RunError (List Slice) := do
  let vars ← indexes.mapM fun (i : Int) =>
    if i < 0 ∨ numVars ≤ i then .error (.sliceIndex i) else .ok (Scope.slotOf i).1
  (Slice.all vars).mapError .slices

def makeStrategy {n : Nat} (s : Settings) (p : Product n) (numVars : Nat) :
    Attempt RunError (Strategy p) := do
  let forward ← Attempt.ofRefusal (slicesOn numVars s.forwardVars)
  let backward ← Attempt.ofRefusal (slicesOn numVars s.backwardVars)
  (Strategy.make p ⟨s.strategyName, forward, backward, s.executors, s.verbose⟩).restate .strategy

/-- All that can be done before the property is translated. -/
def prepare (s : Settings) (m : Model) : Attempt RunError Prepared := do
  if m.ltlspec = "" then Attempt.refuse .emptySpec
  Attempt.ofRefusal (m.validate.mapError .model)
  let n ← Attempt.ofRefusal ((Manager.checkVarnum m.varnum).mapError .varnum)
  let (relation, scope) ← (m.build n s.method).restate .model
  let fairness ← Attempt.ofRefusal (m.fairnessFormulas.mapError .model)
  let trans ← Attempt.ofRefusal ((m.transFormulas s.extendTrans).mapError .model)
  return ⟨n, relation, scope, negatedSpec m.ltlspec fairness trans⟩

def decide {n : Nat} (s : Settings) (p : Product n) (strategy : Strategy p) :
    Except Misuse Response × List Event :=
  if s.safety then
    let r := p.checkSafety
    (.ok r, if s.verbose then Product.safetyEvents r else [])
  else
    let c := strategy.check s.verbose
    (c.result, c.events)

/-- Checks a model. The property is translated by a translator that is stopped as `ending` says. -/
def run (s : Settings) (translator : Translator) (ending : Option Ending) (m : Model) : Report :=
  let note (e : Event) : List Event := if s.verbose then [e] else []
  match s.prepare m with
  | .error e => ⟨.error e, none, []⟩
  | .ok ready =>
    let answer := translator ending ready.formula
    let events := note (.translating ready.formula) ++ answer.events
    match (answer.automaton ready.scope).restate .translator with
    | .error e => ⟨.error e, some ready.formula, events⟩
    | .ok automaton =>
      let p : Product ready.varnum := ⟨ready.relation, automaton⟩
      let events := events ++ note (.automaton automaton.size automaton.edges.length)
      match s.makeStrategy p m.vars.length with
      | .error e => ⟨.error e, some ready.formula, events⟩
      | .ok strategy =>
        match s.decide p strategy with
        | (.error e, log) => ⟨.error (.misused e), some ready.formula, events ++ log⟩
        | (.ok r, log) =>
          ⟨.ok r, some ready.formula, events ++ log ++ note (.statistic r.statistic)⟩

end Settings
end SymbolicLtl
