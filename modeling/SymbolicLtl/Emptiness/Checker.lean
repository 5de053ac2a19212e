import SymbolicLtl.Emptiness.Response
import SymbolicLtl.Reachability.Strategy
import SymbolicLtl.Text.Integer

/-!
Emptiness of the product. A check looks for reachable accepting states from which accepting states
are met again and again; a safety check looks for reachable accepting states.
-/
namespace SymbolicLtl

namespace Product

variable {n : Nat}

/-- The accepting automaton states at which some system state is in all sets, with the number of
such states. -/
def witnesses (p : Product n) (sets : List (StateSets n p.size)) : List (Fin p.size × Nat) :=
  p.automaton.acceptingStates.filterMap fun a =>
    let states := sets.foldl (fun acc v => acc.and (v a)) (.const true)
    if states.isFalse then none else some (a, p.relation.stateCount states)

def respond {k : Nat} (safety : Bool) (found : List (Fin k × Nat)) (statistic : Statistic) :
    Response where
  holds := found.isEmpty
  safety := safety
  violating := found.map fun x => x.1.val
  witnesses := found.map fun x => Text.decimal x.2
  statistic := statistic

/-- The sets at accepting automaton states, which must be among those given. -/
def atAccepting (p : Product n) (sets : List (Diagram n)) : Except Misuse (StateSets n p.size) :=
  Family.collect p.size fun q =>
    if p.automaton.accepting.contains q then
      match sets[q.val]? with
      | some d => .ok d
      | none => .error .badIndex
    else .ok (.const false)

end Product

/-- A computation by a strategy: its result, the strategy after it, the sets after each of its
iterations, and the log. -/
structure Checked {n : Nat} (p : Product n) (α : Type) where
  result : Except Misuse α
  strategy : Strategy p
  trace : List (StateSets n p.size)
  events : List Event

namespace Strategy

variable {n : Nat} {p : Product n}

/-- Shrinking a set grows its complement. -/
theorem missing_not_lt {fair next : StateSets n p.size}
    (h : ∀ q ρ, (next q).eval ρ = true → (fair q).eval ρ = true) (hne : next ≠ fair) :
    (StateSets.missing (next.map .not)) < StateSets.missing (fair.map .not) := by
  refine StateSets.missing_lt_of_ne (fun q ρ hq => ?_) fun e => hne ?_
  · have := h q ρ
    simp at hq ⊢
    cases hn : (next q).eval ρ <;> simp_all
  · refine Family.ext fun q => Diagram.ext fun ρ => ?_
    have := congrArg (fun v : StateSets n p.size => (v q).eval ρ) e
    simp at this
    exact this.symm

/-- Shrinks sets to the states from which they are reached again within the reachable states. The
result comes with the number of iterations it took. -/
def shrink (reachable : Constraint n) (verbose : Bool) (s : Strategy p) (iteration : Nat)
    (fair : StateSets n p.size) : Checked p (StateSets n p.size × Nat) :=
  let passage := s.reachable .backward fair reachable
  match passage.result with
  | .error m => ⟨.error m, passage.strategy, [], passage.events⟩
  | .ok backward =>
    let events := passage.events ++ if verbose then [.fairIteration iteration] else []
    if _h : fair.and backward = fair then
      ⟨.ok (fair, iteration), passage.strategy, [fair.and backward], events⟩
    else
      let rest := shrink reachable verbose passage.strategy (iteration + 1) (fair.and backward)
      { rest with trace := fair.and backward :: rest.trace, events := events ++ rest.events }
termination_by StateSets.missing (fair.map .not)
decreasing_by
  refine missing_not_lt (fun q ρ hq => ?_) _h
  simp at hq ⊢
  exact hq.1

/-- The accepting states in the given sets from which accepting states are reached again and again
without leaving them. Without a limit there are no sets to start from. -/
def fairStates (s : Strategy p) (reachable : Constraint n) (verbose : Bool) :
    Checked p (StateSets n p.size × Nat) :=
  match p.atAccepting (reachable.getD []) with
  | .ok fair => shrink reachable verbose s 1 fair
  | .error m => ⟨.error m, s, [], []⟩

def check (s : Strategy p) (verbose : Bool) : Checked p Response :=
  let forward := s.reachable .forward p.start none
  match forward.result with
  | .error m => ⟨.error m, forward.strategy, [], forward.events⟩
  | .ok found =>
    let reachable := found.or p.start
    let fair := forward.strategy.fairStates (some reachable.toList) verbose
    let note (e : Event) := if verbose then [e] else []
    let events := forward.events ++ note .forwardDone ++ fair.events
    match fair.result with
    | .error m => ⟨.error m, fair.strategy, fair.trace, events⟩
    | .ok (sets, iterations) =>
      ⟨.ok (Product.respond false (p.witnesses [reachable, sets])
          ⟨s.name, iterations, fair.strategy.work⟩),
        fair.strategy, fair.trace, events ++ note (.fairFound iterations)⟩

end Strategy

namespace Product

variable {n : Nat}

/-- Searches iteration by iteration until an accepting state is reached or nothing is new. Gives
the witnesses, and the numbers of iterations and of images. -/
def safetySearch (p : Product n) (reach frontier : StateSets n p.size) :
    List (Fin p.size × Nat) × Nat × Nat :=
  let found := p.witnesses [reach]
  if _h : frontier.isEmpty ∨ !found.isEmpty then (found, 0, 0)
  else
    let round := p.forwardRound none reach frontier
    let (found, iterations, images) := p.safetySearch (reach.or round.fresh) round.fresh
    (found, iterations + 1, images + round.images)
termination_by 2 * reach.missing + if frontier.isEmpty then 0 else 1
decreasing_by exact Search.round_lt _ fun h => _h (.inl h)

def checkSafety (p : Product n) : Response :=
  let (found, iterations, images) := p.safetySearch p.start p.start
  respond true found ⟨"safety", 0, ⟨1, iterations, images, 0⟩⟩

/-- Whether a check finds a violation, for a relation and an automaton that must belong together. -/
def isViolated (p : Product n) (together parallel : Bool) : Except Misuse Bool := do
  if !together then throw .foreignRelation
  let s := if parallel then Strategy.messagePassing p [] [] false else Strategy.sequential p false
  return (← (s.check false).result).violated

def safetyEvents (r : Response) : List Event :=
  (List.range r.statistic.work.iterations).map fun k => .safetyIteration (k + 1)

end Product
end SymbolicLtl
