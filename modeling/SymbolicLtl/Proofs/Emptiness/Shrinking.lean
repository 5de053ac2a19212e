import Mathlib.Data.Set.Card
import SymbolicLtl.Proofs.Emptiness.Outcomes

/-!
The course of shrinking. Every iteration leaves out some states or is the last one, so there is at
most one iteration more than there are accepting states to begin with.
-/
namespace SymbolicLtl

variable {n : Nat} {p : Product n}

namespace Product

theorem card_contains_lt {small large : StateSets n p.size}
    (hsmall : ∀ q, (small q).OverCurrent p.relation.numVars)
    (hlarge : ∀ q, (large q).OverCurrent p.relation.numVars)
    (hsub : ∀ x : p.Node, Contains small x → Contains large x) (hne : small ≠ large) :
    Nat.card { x : p.Node // Contains small x } < Nat.card { x : p.Node // Contains large x } := by
  have hlost : ∃ x : p.Node, Contains large x ∧ ¬ Contains small x := by
    by_contra hno
    push Not at hno
    refine hne (Family.ext fun q => (hsmall q).eq_of_holdsAt (hlarge q) fun s => ?_)
    exact ⟨hsub (s, q), hno (s, q)⟩
  obtain ⟨x, hx, hx'⟩ := hlost
  have hssub : { x : p.Node | Contains small x } ⊂ { x | Contains large x } :=
    ⟨hsub, fun h => hx' (h hx)⟩
  exact Set.ncard_lt_ncard hssub

end Product

namespace Strategy

theorem exists_reachable_states (dir : Direction) (hp : p.OverStates) {s : Strategy p}
    (hs : s.engine.Sound) {start : StateSets n p.size} {constraint : Constraint n}
    (hcov : ∀ q : Fin p.size, constraint.covers q = true)
    (hstart : ∀ q, (start q).OverCurrent p.relation.numVars)
    (hc : ∀ q : Fin p.size, (constraint.setAt q).OverCurrent p.relation.numVars) :
    ∃ v, (s.reachable dir start constraint).result = .ok v ∧
      (∀ q, (v q).OverCurrent p.relation.numVars) ∧
      (s.reachable dir start constraint).strategy.engine.Sound := by
  have hsearches := s.searches_reachable dir start constraint
  obtain ⟨v, hv, -, hover, hsound, -⟩ := (Relation.Alike.refl p.relation).searches hp hp.parts_ne_nil
    hs hs hcov hstart hc hsearches hsearches
  exact ⟨v, hv, hover, hsound⟩

/-- Sets in a row, each contained in the one before it. -/
def Descends (rows : List (StateSets n p.size)) : Prop :=
  rows.IsChain fun v w => ∀ q, (w q).implies (v q) = true

/-- Shrinking goes from sets to sets that they contain, and ends when no state is lost. -/
theorem shrink_course (hp : p.OverStates) {reachable : Constraint n}
    (hcov : ∀ q : Fin p.size, reachable.covers q = true)
    (hc : ∀ q : Fin p.size, (reachable.setAt q).OverCurrent p.relation.numVars) (verbose : Bool)
    {s : Strategy p} (hs : s.engine.Sound) {i : Nat} {fair : StateSets n p.size}
    (hfair : ∀ q, (fair q).OverCurrent p.relation.numVars) :
    ∃ sets m, (shrink reachable verbose s i fair).result = .ok (sets, m) ∧
      Descends (fair :: (shrink reachable verbose s i fair).trace) ∧
      (shrink reachable verbose s i fair).trace.getLast? = some sets ∧
      i + (shrink reachable verbose s i fair).trace.length = m + 1 ∧
      m ≤ i + Nat.card { x : p.Node // Product.Contains fair x } := by
  have hless : ∀ (fair backward : StateSets n p.size) (q : Fin p.size),
      (fair.and backward q).implies (fair q) = true := by
    intro fair backward q
    rw [Diagram.implies_iff]
    intro ρ hρ
    rw [StateSets.get_and, Diagram.eval_and, Bool.and_eq_true] at hρ
    exact hρ.1
  fun_induction shrink reachable verbose s i fair with
  | case1 s i fair passage m hm =>
    obtain ⟨v, hv, -⟩ := exists_reachable_states .backward hp hs hcov hfair hc
    cases hm.symm.trans hv
  | case2 s i fair passage backward hb events hstable =>
    refine ⟨fair, i, rfl, ?_, ?_, rfl, by omega⟩
    · exact List.isChain_pair.mpr (hless fair backward)
    · rw [hstable]
      rfl
  | case3 s i fair passage backward hb events hshrunk rest ih =>
    obtain ⟨v, hv, hover, hsound⟩ := exists_reachable_states .backward hp hs hcov hfair hc
    obtain rfl : backward = v := Except.ok.inj (hb.symm.trans hv)
    have hnext : ∀ q, (fair.and backward q).OverCurrent p.relation.numVars := by
      intro q
      rw [StateSets.get_and]
      exact (hfair q).and (hover q)
    have hcard : Nat.card { x : p.Node // Product.Contains (fair.and backward) x } <
        Nat.card { x : p.Node // Product.Contains fair x } :=
      Product.card_contains_lt hnext hfair
        (fun x hx => ((Product.contains_and fair backward x).mp hx).1) hshrunk
    obtain ⟨sets, m, hresult, hchain, hlast, hlength, hbound⟩ := ih hsound hnext
    refine ⟨sets, m, hresult, ?_, ?_, ?_, by omega⟩
    · exact List.isChain_cons_cons.mpr ⟨hless fair backward, hchain⟩
    · rw [List.getLast?_cons, hlast]
      rfl
    · change i + (rest.trace.length + 1) = m + 1
      have : i + 1 + rest.trace.length = m + 1 := hlength
      omega

/-- Fair states within any given sets are found after as many iterations as there are accepting
states in the sets, and one more, at most. They are the accepting states from which an infinite path
stays in the sets and meets accepting states again and again. -/
theorem fairStates_course {numVars : Int} {init : Diagram n} {constraints : List (Diagram n)}
    {method : Method} (hmake : Relation.make numVars init constraints method = .ok p.relation)
    (hconstraints : ∀ c ∈ constraints, c.DependsOnly fun v => v < 2 * p.relation.numVars)
    (hlabels : ∀ e ∈ p.automaton.edges, e.label.OverCurrent p.relation.numVars)
    {s : Strategy p} (hs : s.engine.Sound) {reach : StateSets n p.size}
    (hreach : ∀ q, (reach q).OverCurrent p.relation.numVars) (verbose : Bool) :
    ∃ start fair m, p.atAccepting reach.toList = .ok start ∧
      (s.fairStates (some reach.toList) verbose).result = .ok (fair, m) ∧
      (∀ q, q ∉ p.automaton.accepting → fair q = .const false) ∧
      (∀ q ∈ p.automaton.accepting, ∀ x, (fair q).HoldsAt x ↔
        Recurs (fun y z => p.automaton.Step (Allowed constraints) y z ∧ Product.Contains reach y)
          (fun y => y.2 ∈ p.automaton.accepting) (x, q)) ∧
      (∀ q, (fair q).OverCurrent p.relation.numVars) ∧
      Descends (start :: (s.fairStates (some reach.toList) verbose).trace) ∧
      (s.fairStates (some reach.toList) verbose).trace.getLast? = some fair ∧
      (s.fairStates (some reach.toList) verbose).trace.length = m ∧
      m ≤ 1 + Nat.card
        { x : p.Node // x.2 ∈ p.automaton.accepting ∧ Product.Contains reach x } := by
  have hp := Product.overStates_of_make hmake hconstraints hlabels
  obtain ⟨start, hstart⟩ : ∃ start, p.atAccepting reach.toList = .ok start :=
    ⟨_, Product.atAccepting_toList reach⟩
  have hover := Product.overCurrent_atAccepting hreach hstart
  have hcov := Constraint.covers_toList reach
  have hc : ∀ q : Fin p.size,
      (Constraint.setAt (some reach.toList) q).OverCurrent p.relation.numVars := by
    intro q
    rw [Constraint.setAt_toList]
    exact hreach q
  have hshrink : ∀ s : Strategy p, s.fairStates (some reach.toList) verbose =
      shrink (some reach.toList) verbose s 1 start := by
    intro s
    simp only [fairStates, Option.getD_some, hstart]
  obtain ⟨fair, m, hresult, hchain, hlast, hlength, hbound⟩ :=
    @shrink_course n p hp _ hcov hc verbose s hs 1 start hover
  -- Any strategy goes through the sets that one search goes through.
  have hexact : (∀ q, (fair q).OverCurrent p.relation.numVars) ∧
      ∀ x, Product.Contains fair x ↔ x.2 ∈ p.automaton.accepting ∧
        Recurs (fun y z => p.automaton.Step (Allowed constraints) y z ∧ Product.Contains reach y)
          (fun y => y.2 ∈ p.automaton.accepting) x := by
    obtain ⟨sets, k, hsets, hsover, hiff⟩ :=
      @fairStates_exact n p hp reach hreach verbose (sequential p false) rfl
    rw [hshrink] at hsets
    have hsound : (sequential p false).engine.Sound := trivial
    obtain ⟨result, hs', ht'⟩ := (Relation.Alike.refl p.relation).shrinks hp hp.parts_ne_nil hcov hc
      hs hsound hover (shrinks_shrink _ verbose s 1 _)
      (shrinks_shrink _ verbose (sequential p false) 1 _)
    obtain rfl : (fair, m) = result := Except.ok.inj (hresult.symm.trans hs')
    obtain ⟨rfl, rfl⟩ := Prod.mk.inj (Except.ok.inj (ht'.symm.trans hsets))
    rw [Relation.next_eq_allowed hmake] at hiff
    exact ⟨hsover, hiff⟩
  rw [hshrink]
  refine ⟨start, fair, m, hstart, hresult, fun q hq => ?_, fun q hq x => ?_, hexact.1, hchain, hlast,
    by omega, ?_⟩
  · refine (hexact.1 q).eq_of_holdsAt (.const false) fun x => ?_
    have hno : ¬ Product.Contains fair (x, q) := fun hx => hq ((hexact.2 _).mp hx).1
    exact iff_of_false hno (by simp [Diagram.HoldsAt])
  · exact (hexact.2 (x, q)).trans (and_iff_right hq)
  · simpa only [Product.contains_atAccepting hstart] using hbound

/-- A state in which the automaton cannot go on is left out. -/
theorem fairStates_toggle :
    let everywhere : StateSets 2 toggle.size := .ofFn fun _ => .const true
    ∃ fair m, ((sequential toggle false).fairStates (some everywhere.toList) false).result =
      .ok (fair, m) ∧ ¬ (fair ⟨1, Nat.one_lt_two⟩).HoldsAt (fun _ : Fin 1 => true) := by
  intro everywhere
  have hconstraints : ∀ c ∈ [(Diagram.literal (0 : Fin 2) true).xor (Diagram.literal 1 true)],
      c.DependsOnly fun v => v < 2 * toggle.relation.numVars :=
    List.forall_mem_singleton.mpr (.combine _ (.literal (by decide) _) (.literal (by decide) _))
  have hcurrent : IsCurrent toggle.relation.numVars 0 := ⟨by decide, rfl⟩
  have hlabels : ∀ e ∈ toggle.automaton.edges, e.label.OverCurrent toggle.relation.numVars :=
    List.forall_mem_cons.mpr ⟨.literal hcurrent _,
      List.forall_mem_singleton.mpr (.literal hcurrent _)⟩
  have hsound : (sequential toggle false).engine.Sound := trivial
  have hover : ∀ q, (everywhere q).OverCurrent toggle.relation.numVars := by
    intro q
    rw [Family.get_ofFn]
    exact .const true
  obtain ⟨-, fair, m, -, hresult, -, hfair, -⟩ :=
    fairStates_course Relation.make_toggle hconstraints hlabels hsound hover false
  refine ⟨fair, m, hresult, fun h => ?_⟩
  obtain ⟨f, h₀, hstep, -⟩ := (hfair _ (by decide) _).mp h
  obtain ⟨⟨-, e, he, hsource, -, hlabel⟩, -⟩ := hstep 0
  rw [h₀] at hsource hlabel
  -- The only edge from the second automaton state asks for a false variable.
  rcases List.mem_cons.mp he with rfl | he
  · cases hsource
  · obtain rfl := List.mem_singleton.mp he
    rw [Diagram.HoldsAt, Diagram.eval_literal] at hlabel
    cases hlabel

end Strategy
end SymbolicLtl
