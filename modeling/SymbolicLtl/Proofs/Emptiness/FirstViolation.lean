import Mathlib.Order.Bounds.Basic
import SymbolicLtl.Proofs.Emptiness.Safety

/-!
The answer of a safety check. The search stops in the first iteration that reaches an accepting state,
so what it reports is about the shortest paths to accepting states: their length, the automaton states at
which they end, and with how many system states each of these is reached.
-/
namespace SymbolicLtl
namespace Product

variable {n : Nat} {p : Product n}

theorem Explored.contains_iff {d : Nat} {v frontier : StateSets n p.size} (h : p.Explored d v frontier)
    (hbefore : ∀ j y, j < d → ReachedIn (p.automaton.Step p.relation.Next) p.Starts j y →
      y.2 ∉ p.automaton.accepting)
    {y : p.Node} (hy : y.2 ∈ p.automaton.accepting) :
    Contains v y ↔ ReachedIn (p.automaton.Step p.relation.Next) p.Starts d y := by
  rw [h.reached]
  constructor
  · rintro ⟨j, hj, hreached⟩
    rcases Nat.lt_or_eq_of_le hj with hlt | rfl
    · exact absurd hy (hbefore j y hlt hreached)
    · exact hreached
  · intro hreached
    exact ⟨d, Nat.le_refl d, hreached⟩

/-- A safety check reports the accepting states that are reached in as many steps as it took iterations.
None is reached in fewer steps, and if it reports none then none is reached at all. -/
theorem checkSafety_eq_respond (hp : p.OverStates)
    (hinit : p.relation.init.OverCurrent p.relation.numVars) :
    let reached := ReachedIn (p.automaton.Step p.relation.Next) p.Starts
    ∃ (d images : Nat) (qs : List (Fin p.size)),
      (∀ j y, j < d → reached j y → y.2 ∉ p.automaton.accepting) ∧
      qs.Pairwise (· < ·) ∧
      (∀ q, q ∈ qs ↔ q ∈ p.automaton.accepting ∧ ∃ s, reached d (s, q)) ∧
      (qs = [] → ∀ j y, reached j y → y.2 ∉ p.automaton.accepting) ∧
      p.checkSafety = respond true (qs.map fun q => (q, Nat.card { s // reached d (s, q) }))
        ⟨"safety", 0, ⟨1, d, images, 0⟩⟩ := by
  intro reached
  obtain ⟨v, frontier, hv, hfound, hstop, hearlier⟩ := safetySearch_exact hp _ _ 0 (.start hinit)
  rw [Nat.zero_add] at hv hearlier
  have hbefore : ∀ j y, j < (p.safetySearch p.start p.start).2.1 → reached j y →
      y.2 ∉ p.automaton.accepting := fun j y hj => hearlier j y (Nat.zero_le j) hj
  obtain ⟨qs, hsorted, hmem, hwitnesses⟩ :=
    witnesses_exact (List.forall_mem_singleton.mpr hv.reach_over)
  simp only [List.forall_mem_singleton] at hmem hwitnesses
  refine ⟨_, (p.safetySearch p.start p.start).2.2, qs, hbefore, hsorted, fun q => ?_,
    fun hnil j y hy hacc => ?_, ?_⟩
  · rw [hmem]
    exact and_congr_right fun hacc => exists_congr fun s => hv.contains_iff hbefore hacc
  · have hnone : p.witnesses [v] = [] := by rw [hwitnesses, hnil, List.map_nil]
    have hempty : frontier.isEmpty = true := hstop.resolve_right fun hne => hne hnone
    exact (witnesses_eq_nil_iff hv.reach_over).mp hnone y (hv.complete hempty hy) hacc
  · have hcount : p.witnesses [v] = qs.map fun q => (q, Nat.card { s //
        reached (p.safetySearch p.start p.start).2.1 (s, q) }) := by
      rw [hwitnesses]
      refine List.map_congr_left fun q hq => ?_
      have hcontains : ∀ s, Contains v (s, q) ↔
          reached (p.safetySearch p.start p.start).2.1 (s, q) :=
        fun s => hv.contains_iff hbefore ((hmem q).mp hq).1
      simp only [hcontains]
    rw [← hcount, ← hfound]
    rfl

/-- A safety check finds a violation when an accepting state can be reached in some number of steps. It
then took the smallest such number of iterations. The violating automaton states are the accepting ones
that are reached in this number of steps, in increasing order, each with the number of system states with
which it is. -/
theorem checkSafety_exact {numVars : Int} {init : Diagram n} {constraints : List (Diagram n)}
    {method : Method} (hmake : Relation.make numVars init constraints method = .ok p.relation)
    (hconstraints : ∀ c ∈ constraints, c.DependsOnly fun v => v < 2 * p.relation.numVars)
    (hinit : init.OverCurrent p.relation.numVars)
    (hlabels : ∀ e ∈ p.automaton.edges, e.label.OverCurrent p.relation.numVars) :
    let step : p.Node → p.Node → Prop := p.automaton.Step (Allowed constraints)
    let reached := ReachedIn step fun x => init.HoldsAt x.1 ∧ x.2 ∈ p.automaton.initial
    let response := p.checkSafety
    (response.violated = true ↔ ∃ d y, reached d y ∧ y.2 ∈ p.automaton.accepting) ∧
    (response.violated = false → response.violating = [] ∧ response.witnesses = []) ∧
    (response.violated = true → ∃ (d : Nat) (qs : List (Fin p.size)),
      response.statistic.work.iterations = d ∧
      IsLeast { d | ∃ y, reached d y ∧ y.2 ∈ p.automaton.accepting } d ∧
      qs.Pairwise (· < ·) ∧
      (∀ q, q ∈ qs ↔ q ∈ p.automaton.accepting ∧ ∃ s, reached d (s, q)) ∧
      response.violating = qs.map (fun q => (q.val : Int)) ∧
      response.witnesses = qs.map fun q => toString (Nat.card { s // reached d (s, q) })) := by
  intro step reached response
  have hstart : p.relation.init = init := (Relation.make_eq_ok hmake).2.1
  have hp := overStates_of_make hmake hconstraints hlabels
  obtain ⟨d, images, qs, hbefore, hsorted, hmem, hnone, hresponse⟩ :=
    checkSafety_eq_respond hp (hstart ▸ hinit)
  have hreached : ReachedIn (p.automaton.Step p.relation.Next) p.Starts = reached := by
    have hstarts : p.Starts = fun x => init.HoldsAt x.1 ∧ x.2 ∈ p.automaton.initial := by
      funext x
      rw [Starts, hstart]
    rw [Relation.next_eq_allowed hmake, hstarts]
  simp only [hreached] at hbefore hmem hnone hresponse
  have hviolated : response.violated = true ↔ qs ≠ [] := by
    simp only [response, hresponse]
    cases qs <;> simp [respond, Response.violated]
  have hviolating : response.violating = qs.map fun q => (q.val : Int) := by
    simp [response, hresponse, respond]
  have hwitnesses : response.witnesses =
      qs.map fun q => toString (Nat.card { s // reached d (s, q) }) := by
    simp [response, hresponse, respond, Text.decimal_eq]
  refine ⟨?_, fun hholds => ?_, fun hbroken => ?_⟩
  · rw [hviolated]
    constructor
    · intro hne
      obtain ⟨q, hq⟩ := List.exists_mem_of_ne_nil qs hne
      obtain ⟨hacc, s, hs⟩ := (hmem q).mp hq
      exact ⟨d, (s, q), hs, hacc⟩
    · rintro ⟨j, y, hy, hacc⟩ hnil
      exact hnone hnil j y hy hacc
  · have hnil : qs = [] := by
      by_contra hne
      rw [hviolated.mpr hne] at hholds
      cases hholds
    rw [hviolating, hwitnesses, hnil]
    exact ⟨rfl, rfl⟩
  · obtain ⟨q, hq⟩ := List.exists_mem_of_ne_nil qs (hviolated.mp hbroken)
    obtain ⟨hacc, s, hs⟩ := (hmem q).mp hq
    refine ⟨d, qs, ?_, ⟨⟨(s, q), hs, hacc⟩, ?_⟩, hsorted, hmem, hviolating, hwitnesses⟩
    · simp [response, hresponse, respond]
    · -- In fewer steps no accepting state is reached.
      rintro j ⟨y, hy, hyacc⟩
      by_contra hlt
      exact hbefore j y (Nat.lt_of_not_le hlt) hy hyacc

theorem step_latch_iff {s s' : State Strategy.latch.relation.numVars} {q q' : Fin Strategy.latch.size} :
    Strategy.latch.automaton.Step
        (Allowed [(Diagram.literal (0 : Fin 2) true).xor (Diagram.literal 1 true)]) (s, q) (s', q') ↔
      (∀ i, s' i = !s i) ∧ q'.val = 1 ∧ (q.val = 0 → ∀ i, s i = true) := by
  have hvars : ∀ {P : Fin Strategy.latch.relation.numVars → Prop},
      (∀ i, P i) ↔ P ⟨0, Nat.one_pos⟩ := by
    intro P
    refine ⟨fun h => h _, fun h i => ?_⟩
    obtain rfl : i = ⟨0, Nat.one_pos⟩ := Fin.ext (Nat.lt_one_iff.mp i.isLt)
    exact h
  have hnext : Allowed [(Diagram.literal (0 : Fin 2) true).xor (Diagram.literal 1 true)] s s' ↔
      s' ⟨0, Nat.one_pos⟩ = !s ⟨0, Nat.one_pos⟩ := by
    rw [Allowed, List.forall_mem_singleton, Diagram.eval_xor, Diagram.eval_literal,
      Diagram.eval_literal]
    change ((s ⟨0, Nat.one_pos⟩ == true) != (s' ⟨0, Nat.one_pos⟩ == true)) = true ↔ _
    cases s ⟨0, Nat.one_pos⟩ <;> cases s' ⟨0, Nat.one_pos⟩ <;> decide
  have hlabel : (Diagram.literal (0 : Fin 2) true).HoldsAt s ↔ s ⟨0, Nat.one_pos⟩ = true := by
    rw [Diagram.HoldsAt, Diagram.eval_literal, beq_iff_eq]
    rfl
  rw [hvars, hvars, Automaton.Step, hnext]
  refine and_congr_right fun _ => ?_
  constructor
  · rintro ⟨e, he, rfl, rfl, hs⟩
    rcases List.mem_cons.mp he with rfl | he
    · exact ⟨rfl, fun _ => hlabel.mp hs⟩
    · obtain rfl := List.mem_singleton.mp he
      exact ⟨rfl, fun hq => absurd hq (by decide)⟩
  · rintro ⟨hq', hs⟩
    obtain rfl : q' = ⟨1, Nat.one_lt_two⟩ := Fin.ext hq'
    by_cases hq : q.val = 0
    · exact ⟨_, List.mem_cons_self, Fin.ext hq.symm, rfl, hlabel.mpr (hs hq)⟩
    · have hone : q.val = 1 := by
        have hlt : q.val < 2 := q.isLt
        omega
      exact ⟨_, List.mem_cons_of_mem _ List.mem_cons_self, Fin.ext hone.symm, rfl,
        Diagram.eval_const ..⟩

/-- The automaton of `latch` can accept after one step, and not at once: when the variable was true, which
it then is no longer. -/
theorem checkSafety_exact_latch :
    Strategy.latch.checkSafety.violated = true ∧
      Strategy.latch.checkSafety.statistic.work.iterations = 1 ∧
      Strategy.latch.checkSafety.violating = [1] ∧ Strategy.latch.checkSafety.witnesses = ["1"] := by
  have hcurrent : IsCurrent Strategy.latch.relation.numVars 0 := ⟨by decide, rfl⟩
  have hconstraints : ∀ c ∈ [(Diagram.literal (0 : Fin 2) true).xor (Diagram.literal 1 true)],
      c.DependsOnly fun v => v < 2 * Strategy.latch.relation.numVars :=
    List.forall_mem_singleton.mpr (.combine _ (.literal (by decide) _) (.literal (by decide) _))
  have hlabels : ∀ e ∈ Strategy.latch.automaton.edges,
      e.label.OverCurrent Strategy.latch.relation.numVars :=
    List.forall_mem_cons.mpr ⟨.literal hcurrent _, List.forall_mem_singleton.mpr (.const true)⟩
  obtain ⟨hviolated, -, hreport⟩ :=
    checkSafety_exact Relation.make_toggle hconstraints (.const true) hlabels
  generalize hreached : ReachedIn (Strategy.latch.automaton.Step (Allowed
      [(Diagram.literal (0 : Fin 2) true).xor (Diagram.literal 1 true)])) _ = reached
    at hviolated hreport
  have hzero : ∀ y, reached 0 y → y.2 ∉ Strategy.latch.automaton.accepting := by
    rw [← hreached]
    rintro ⟨s, q⟩ ⟨-, hinitial⟩ hacc
    have hwaiting : q.val = 0 := congrArg Fin.val (List.mem_singleton.mp hinitial)
    have hdone : q.val = 1 := congrArg Fin.val (List.mem_singleton.mp hacc)
    omega
  have hone : ∀ s, reached 1 (s, ⟨1, Nat.one_lt_two⟩) ↔ s = fun _ => false := by
    intro s
    rw [← hreached]
    constructor
    · rintro ⟨⟨s₀, q₀⟩, ⟨-, hinitial⟩, hstep⟩
      obtain ⟨hnext, -, htrue⟩ := step_latch_iff.mp hstep
      funext i
      rw [hnext i, htrue (congrArg Fin.val (List.mem_singleton.mp hinitial)) i]
      rfl
    · rintro rfl
      exact ⟨(fun _ => true, ⟨0, Nat.zero_lt_two⟩), ⟨Diagram.eval_const .., List.mem_cons_self⟩,
        step_latch_iff.mpr ⟨fun _ => rfl, rfl, fun _ _ => rfl⟩⟩
  have hfirst : ∃ y, reached 1 y ∧ y.2 ∈ Strategy.latch.automaton.accepting :=
    ⟨_, (hone _).mpr rfl, List.mem_cons_self⟩
  have hbroken := hviolated.mpr ⟨1, hfirst⟩
  obtain ⟨d, qs, hiterations, hleast, hsorted, hmem, hviolating, hwitnesses⟩ := hreport hbroken
  have hd : d = 1 := by
    refine Nat.le_antisymm (hleast.2 hfirst) (Nat.one_le_iff_ne_zero.mpr ?_)
    rintro rfl
    obtain ⟨y, hy, hacc⟩ := hleast.1
    exact hzero y hy hacc
  subst hd
  have hqs : qs = [⟨1, Nat.one_lt_two⟩] := by
    refine List.Pairwise.eq_of_mem_iff hsorted (List.pairwise_singleton _ _) fun q => ?_
    rw [hmem]
    constructor
    · rintro ⟨hacc, -⟩
      exact hacc
    · intro hq
      obtain rfl := List.mem_singleton.mp hq
      exact ⟨List.mem_cons_self, _, (hone _).mpr rfl⟩
  have hcard : Nat.card { s // reached 1 (s, ⟨1, Nat.one_lt_two⟩) } = 1 := by
    simp only [hone]
    exact Nat.card_unique
  refine ⟨hbroken, hiterations, ?_, ?_⟩
  · rw [hviolating, hqs]
    rfl
  · rw [hwitnesses, hqs, List.map_singleton, hcard]
    rfl

end Product
end SymbolicLtl
