import SymbolicLtl.Proofs.Emptiness.Outcomes

/-!
Safety checks. The search goes through the states reached in more and more steps and stops at the first
accepting ones, so it finds a violation when an accepting state can be reached at all. A check for fair
states never finds more, and it finds as much where accepting states can be kept forever.
-/
namespace SymbolicLtl

variable {n : Nat} {p : Product n}

section Steps

variable {α : Type} {R : α → α → Prop} {start : α → Prop}

def ReachedIn (R : α → α → Prop) (start : α → Prop) : Nat → α → Prop
  | 0, y => start y
  | i + 1, y => ∃ x, ReachedIn R start i x ∧ R x y

theorem exists_reachedIn_iff {y : α} :
    (∃ i, ReachedIn R start i y) ↔ ∃ x, start x ∧ Relation.ReflTransGen R x y := by
  constructor
  · rintro ⟨i, hi⟩
    induction i generalizing y with
    | zero => exact ⟨y, hi, .refl⟩
    | succ i ih =>
      obtain ⟨z, hz, hzy⟩ := hi
      obtain ⟨x, hx, hpath⟩ := ih hz
      exact ⟨x, hx, hpath.tail hzy⟩
  · rintro ⟨x, hx, hpath⟩
    induction hpath with
    | refl => exact ⟨0, hx⟩
    | tail _ hyz ih =>
      obtain ⟨i, hi⟩ := ih
      exact ⟨i + 1, _, hi, hyz⟩

end Steps

namespace Product

theorem forwardRound_states (hp : p.OverStates) {reach frontier : StateSets n p.size}
    (hreach : ∀ q, (reach q).OverCurrent p.relation.numVars)
    (hfrontier : ∀ q, (frontier q).OverCurrent p.relation.numVars) :
    (∀ q, ((p.forwardRound none reach frontier).fresh q).OverCurrent p.relation.numVars) ∧
      ∀ y, Contains (p.forwardRound none reach frontier).fresh y ↔
        (∃ x, Contains frontier x ∧ p.automaton.Step p.relation.Next x y) ∧ ¬ Contains reach y := by
  have hnode : ∀ y : p.Point, (p.forwardRound none reach frontier).fresh.Has y ↔
      (∃ x, Contains frontier x ∧ p.automaton.Step p.relation.Next x y.node) ∧
        ¬ Contains reach y.node := by
    intro y
    rw [has_forwardRound hp.parts_ne_nil, has_iff_contains hreach]
    refine and_congr_left fun _ => ?_
    constructor
    · rintro ⟨x, hx, hmove, -⟩
      exact ⟨Point.node x, (has_iff_contains hfrontier x).mp hx, hmove.stepTo hp⟩
    · rintro ⟨a, ha, hstep⟩
      have hstep : p.StepTo .forward a y.node := hstep
      obtain ⟨x, rfl, hmove⟩ := hstep.exists_move hp
      exact ⟨x, (has_iff_contains hfrontier x).mpr ha, hmove, rfl⟩
  exact states_of_has hnode

/-- Where a safety search stands after `i` iterations: all states are found that are reached in at most
`i` steps, and only those of the frontier lead to further ones. -/
structure Explored (p : Product n) (i : Nat) (reach frontier : StateSets n p.size) : Prop where
  reach_over : ∀ q, (reach q).OverCurrent p.relation.numVars
  frontier_over : ∀ q, (frontier q).OverCurrent p.relation.numVars
  reached : ∀ y, Contains reach y ↔
    ∃ j ≤ i, ReachedIn (p.automaton.Step p.relation.Next) p.Starts j y
  last : ∀ y, Contains frontier y → ReachedIn (p.automaton.Step p.relation.Next) p.Starts i y
  closed : ∀ x y, Contains reach x → p.automaton.Step p.relation.Next x y →
    Contains reach y ∨ Contains frontier x

namespace Explored

variable {i : Nat} {reach frontier : StateSets n p.size}

theorem start (hinit : p.relation.init.OverCurrent p.relation.numVars) :
    p.Explored 0 p.start p.start where
  reach_over := overCurrent_start hinit
  frontier_over := overCurrent_start hinit
  reached y := by
    rw [contains_start]
    constructor
    · intro hy
      exact ⟨0, Nat.le_refl 0, hy⟩
    · rintro ⟨j, hj, hy⟩
      obtain rfl : j = 0 := by omega
      exact hy
  last y hy := (contains_start y).mp hy
  closed x y hx _ := .inr hx

theorem step (hp : p.OverStates) (h : p.Explored i reach frontier) :
    p.Explored (i + 1) (reach.or (p.forwardRound none reach frontier).fresh)
      (p.forwardRound none reach frontier).fresh := by
  obtain ⟨hover, hfresh⟩ := forwardRound_states hp h.reach_over h.frontier_over
  generalize (p.forwardRound none reach frontier).fresh = fresh at hover hfresh
  -- A successor of a state found before is found now.
  have hnext : ∀ x y, Contains reach x → p.automaton.Step p.relation.Next x y →
      Contains (reach.or fresh) y := by
    intro x y hx hxy
    rw [contains_or, hfresh]
    rcases h.closed x y hx hxy with hy | hx
    · exact .inl hy
    · by_cases hy : Contains reach y
      · exact .inl hy
      · exact .inr ⟨⟨x, hx, hxy⟩, hy⟩
  have hlast : ∀ y, Contains fresh y →
      ReachedIn (p.automaton.Step p.relation.Next) p.Starts (i + 1) y := by
    intro y hy
    obtain ⟨⟨x, hx, hxy⟩, -⟩ := (hfresh y).mp hy
    exact ⟨x, h.last x hx, hxy⟩
  refine ⟨fun q => ?_, hover, fun y => ?_, hlast, fun x y hx hxy => ?_⟩
  · rw [StateSets.get_or]
    exact (h.reach_over q).or (hover q)
  · constructor
    · intro hy
      rw [contains_or, h.reached] at hy
      rcases hy with ⟨j, hj, hy⟩ | hy
      · exact ⟨j, by omega, hy⟩
      · exact ⟨i + 1, Nat.le_refl _, hlast y hy⟩
    · rintro ⟨j, hj, hy⟩
      by_cases hji : j ≤ i
      · rw [contains_or]
        exact .inl ((h.reached y).mpr ⟨j, hji, hy⟩)
      · obtain rfl : j = i + 1 := by omega
        obtain ⟨x, hx, hxy⟩ := hy
        exact hnext x y ((h.reached x).mpr ⟨i, Nat.le_refl i, hx⟩) hxy
  · rw [contains_or] at hx
    rcases hx with hx | hx
    · exact .inl (hnext x y hx hxy)
    · exact .inr hx

theorem complete (h : p.Explored i reach frontier) (hempty : frontier.isEmpty = true) {j : Nat}
    {y : p.Node} (hy : ReachedIn (p.automaton.Step p.relation.Next) p.Starts j y) :
    Contains reach y := by
  induction j generalizing y with
  | zero => exact (h.reached y).mpr ⟨0, Nat.zero_le i, hy⟩
  | succ j ih =>
    obtain ⟨x, hx, hxy⟩ := hy
    rcases h.closed x y (ih hx) hxy with hy | hx
    · exact hy
    · rw [Contains, (StateSets.isEmpty_iff frontier).mp hempty] at hx
      simp [Diagram.HoldsAt] at hx

end Explored

theorem witnesses_eq_nil_iff {v : StateSets n p.size}
    (hv : ∀ q, (v q).OverCurrent p.relation.numVars) :
    p.witnesses [v] = [] ↔ ∀ y, Contains v y → y.2 ∉ p.automaton.accepting := by
  obtain ⟨qs, -, hmem, hwitnesses⟩ := witnesses_exact (List.forall_mem_singleton.mpr hv)
  rw [hwitnesses, List.map_eq_nil_iff, List.eq_nil_iff_forall_not_mem]
  simp only [hmem, List.forall_mem_singleton, not_and, not_exists]
  constructor
  · intro h y hy hacc
    exact h y.2 hacc y.1 hy
  · intro h q hacc s hs
    exact h (s, q) hs hacc

/-- A safety search stops when nothing is new or an accepting state is found, and before that none is
found. -/
theorem safetySearch_exact (hp : p.OverStates) (reach frontier : StateSets n p.size) :
    ∀ i, p.Explored i reach frontier →
      ∃ v frontier', p.Explored (i + (p.safetySearch reach frontier).2.1) v frontier' ∧
        (p.safetySearch reach frontier).1 = p.witnesses [v] ∧
        (frontier'.isEmpty = true ∨ p.witnesses [v] ≠ []) ∧
        ∀ j y, i ≤ j → j < i + (p.safetySearch reach frontier).2.1 →
          ReachedIn (p.automaton.Step p.relation.Next) p.Starts j y → y.2 ∉ p.automaton.accepting := by
  fun_induction safetySearch p reach frontier with
  | case1 reach frontier found hend =>
    intro i h
    refine ⟨reach, frontier, h, rfl, ?_, fun j y hij hji => ?_⟩
    · simpa [found] using hend
    · dsimp only at hji
      omega
  | case2 reach frontier found hend round found' iterations images hrest ih =>
    intro i h
    obtain ⟨v, frontier', hv, hfound, hstop, hbefore⟩ := ih (i + 1) (h.step hp)
    rw [hrest] at hv hfound hbefore
    have hcount : i + 1 + iterations = i + (iterations + 1) := by omega
    dsimp only at hv hfound hbefore ⊢
    rw [hcount] at hv hbefore
    refine ⟨v, frontier', hv, hfound, hstop, fun j y hij hji hy => ?_⟩
    by_cases hj : i + 1 ≤ j
    · exact hbefore j y hj hji hy
    · have hnone : p.witnesses [reach] = [] := by
        rw [not_or] at hend
        simpa [found] using hend.2
      have hreach : Contains reach y := (h.reached y).mpr ⟨j, by omega, hy⟩
      exact (witnesses_eq_nil_iff h.reach_over).mp hnone y hreach

/-- A safety check finds a violation when an accepting state can be reached. -/
theorem checkSafety_violated_iff (hp : p.OverStates)
    (hinit : p.relation.init.OverCurrent p.relation.numVars) :
    p.checkSafety.violated = true ↔ ∃ y : p.Node, y.2 ∈ p.automaton.accepting ∧
      ∃ x, p.Starts x ∧ Relation.ReflTransGen (p.automaton.Step p.relation.Next) x y := by
  obtain ⟨v, frontier, hv, hfound, hstop, -⟩ := safetySearch_exact hp _ _ 0 (.start hinit)
  have hviolated : p.checkSafety.violated = true ↔ p.witnesses [v] ≠ [] := by
    rw [← hfound]
    simp [checkSafety, respond, Response.violated]
  rw [hviolated]
  constructor
  · intro hne
    rw [ne_eq, witnesses_eq_nil_iff hv.reach_over] at hne
    push Not at hne
    obtain ⟨y, hy, hacc⟩ := hne
    obtain ⟨j, -, hj⟩ := (hv.reached y).mp hy
    exact ⟨y, hacc, exists_reachedIn_iff.mp ⟨j, hj⟩⟩
  · rintro ⟨y, hacc, hreach⟩
    obtain ⟨j, hj⟩ := exists_reachedIn_iff.mpr hreach
    rcases hstop with hempty | hne
    · intro hnil
      exact (witnesses_eq_nil_iff hv.reach_over).mp hnil y (hv.complete hempty hj) hacc
    · exact hne

theorem recurs_of_loops {T : State p.relation.numVars → State p.relation.numVars → Prop}
    (hloop : ∀ q ∈ p.automaton.accepting, ∃ e ∈ p.automaton.edges,
      e.source = q ∧ e.target = q ∧ e.label = .const true)
    (hlive : ∀ s₀ s, p.relation.init.HoldsAt s₀ → Relation.ReflTransGen T s₀ s → ∃ s', T s s')
    {x₀ x : p.Node} (hx₀ : p.Starts x₀)
    (hpath : Relation.ReflTransGen (p.automaton.Step T) x₀ x) (hx : x.2 ∈ p.automaton.accepting) :
    Recurs (p.automaton.Step T) (fun y => y.2 ∈ p.automaton.accepting) x := by
  let Z (y : p.Node) : Prop :=
    y.2 ∈ p.automaton.accepting ∧ Relation.ReflTransGen (p.automaton.Step T) x₀ y
  have hreturn : ∀ y, Z y → ∃ z, Z z ∧ Relation.TransGen (p.automaton.Step T) y z := by
    intro y hy
    have hsystem : Relation.ReflTransGen T x₀.1 y.1 := hy.2.lift Prod.fst fun _ _ h => h.1
    obtain ⟨s', hs'⟩ := hlive x₀.1 y.1 hx₀.1 hsystem
    obtain ⟨e, he, hsource, htarget, hlabel⟩ := hloop y.2 hy.1
    have hstep : p.automaton.Step T y (s', y.2) := by
      refine ⟨hs', e, he, hsource, htarget, ?_⟩
      rw [hlabel]
      rfl
    exact ⟨(s', y.2), ⟨hy.1, hy.2.tail hstep⟩, .single hstep⟩
  obtain ⟨f, hstart, hstep, hmeet⟩ := recurs_of_returning hreturn (show Z x from ⟨hx, hpath⟩)
  refine ⟨f, hstart, hstep, fun m => ?_⟩
  obtain ⟨i, hi, hZ⟩ := hmeet m
  exact ⟨i, hi, hZ.1⟩

end Product

namespace Strategy

/-- Whatever happens in a check by a sound strategy, it answers whether some run meets accepting states
again and again. -/
theorem Checks.violated_iff (hp : p.OverStates)
    (hinit : p.relation.init.OverCurrent p.relation.numVars) {s : Strategy p} (hs : s.engine.Sound)
    {x : Except Misuse Response} (hx : s.Checks x) :
    ∃ response, x = .ok response ∧ (response.violated = true ↔ ∃ x, p.Starts x ∧
      Recurs (p.automaton.Step p.relation.Next) (fun y => y.2 ∈ p.automaton.accepting) x) := by
  have hsequential : (sequential p false).engine.Sound := trivial
  obtain ⟨response, answer, rfl, hanswer, hagrees⟩ := (Relation.Alike.refl p.relation).checks hp
    hp.parts_ne_nil hinit hs hsequential hx ((sequential p false).checks_check false)
  obtain ⟨qs, statistic, -, hmem, hcheck⟩ := check_fair hp hinit (s := sequential p false) rfl false
  obtain rfl := Except.ok.inj (hcheck.symm.trans hanswer)
  refine ⟨response, rfl, ?_⟩
  rw [← Product.exists_fair_iff, Response.violated, hagrees.holds]
  simp only [← hmem]
  cases qs <;> simp [Product.respond]

/-- Where a check for fair states finds a violation a safety check does, whatever strategy is used and
whatever happens in it. If every accepting automaton state has a loop that is always open, and every
state that the system can reach has a successor, then both answer alike. -/
theorem checkSafety_agrees {numVars : Int} {init : Diagram n} {constraints : List (Diagram n)}
    {method : Method} (hmake : Relation.make numVars init constraints method = .ok p.relation)
    (hconstraints : ∀ c ∈ constraints, c.DependsOnly fun v => v < 2 * p.relation.numVars)
    (hinit : init.OverCurrent p.relation.numVars)
    (hlabels : ∀ e ∈ p.automaton.edges, e.label.OverCurrent p.relation.numVars)
    {settings : StrategySettings} {s : Strategy p} (hs : make p settings = .ok s)
    (hforward : Slice.OverCurrent p.relation.numVars settings.forwardSlices)
    (hbackward : Slice.OverCurrent p.relation.numVars settings.backwardSlices) :
    (∀ verbose, s.Checks (s.check verbose).result) ∧
      ∀ x, s.Checks x → ∃ response, x = .ok response ∧
        (response.violated = true → p.checkSafety.violated = true) ∧
        ((∀ q ∈ p.automaton.accepting, ∃ e ∈ p.automaton.edges,
            e.source = q ∧ e.target = q ∧ e.label = .const true) →
          (∀ s₀ s, init.HoldsAt s₀ → Relation.ReflTransGen (Allowed constraints) s₀ s →
            ∃ s' : State p.relation.numVars, Allowed constraints s s') →
          p.checkSafety.violated = response.violated) := by
  have hp := Product.overStates_of_make hmake hconstraints hlabels
  have hstart : p.relation.init = init := (Relation.make_eq_ok hmake).2.1
  have hover : p.relation.init.OverCurrent p.relation.numVars := hstart ▸ hinit
  have hnext : p.relation.Next = Allowed constraints := by
    funext s s'
    exact propext (Relation.holds_iff hmake _)
  have hsound := sound_of_make hmake hforward hbackward hs
  refine ⟨s.checks_check, fun x hx => ?_⟩
  obtain ⟨response, rfl, hfair⟩ := hx.violated_iff hp hover hsound
  have hsafety := Product.checkSafety_violated_iff hp hover
  have hfirst : response.violated = true → p.checkSafety.violated = true := by
    rw [hfair, hsafety, ← Product.exists_fair_iff]
    rintro ⟨q, hq, s, hreach, -⟩
    exact ⟨(s, q), hq, hreach⟩
  refine ⟨response, rfl, hfirst, fun hloop hlive => ?_⟩
  rw [Bool.eq_iff_iff]
  refine ⟨fun hviolated => ?_, hfirst⟩
  obtain ⟨y, hacc, x, hx, hpath⟩ := hsafety.mp hviolated
  rw [← hstart, ← hnext] at hlive
  have hrun := Product.recurs_of_loops hloop hlive hx hpath hacc
  exact hfair.mpr ⟨x, hx, hrun.of_reflTransGen hpath⟩

/-- A variable that changes in every step, and an automaton that accepts once the variable has been
true. -/
def latch : Product 2 where
  relation := .toggle
  automaton :=
    let waiting : Fin 2 := ⟨0, Nat.zero_lt_two⟩
    let done : Fin 2 := ⟨1, Nat.one_lt_two⟩
    ⟨2, [⟨waiting, done, .literal waiting true⟩, ⟨done, done, .const true⟩], [waiting], [done]⟩

def halves : StrategySettings := ⟨messagePassingName, [[⟨0, true⟩], [⟨0, false⟩]], [], 1, false⟩

/-- The workers find the violation that the safety check finds. -/
theorem checkSafety_agrees_latch : ∃ s response, make latch halves = .ok s ∧
    (s.check false).result = .ok response ∧ latch.checkSafety.violated = true ∧
      response.violated = true := by
  have hconstraints : ∀ c ∈ [(Diagram.literal (0 : Fin 2) true).xor (Diagram.literal 1 true)],
      c.DependsOnly fun v => v < 2 * latch.relation.numVars :=
    List.forall_mem_singleton.mpr (.combine _ (.literal (by decide) _) (.literal (by decide) _))
  have hcurrent : IsCurrent latch.relation.numVars 0 := ⟨by decide, rfl⟩
  have hlabels : ∀ e ∈ latch.automaton.edges, e.label.OverCurrent latch.relation.numVars :=
    List.forall_mem_cons.mpr ⟨.literal hcurrent _, List.forall_mem_singleton.mpr (.const true)⟩
  have hslices : Slice.OverCurrent latch.relation.numVars halves.forwardSlices :=
    .inr ⟨[0], List.forall_mem_singleton.mpr ⟨⟨0, by decide⟩, rfl⟩, rfl⟩
  obtain ⟨s, hs⟩ : ∃ s, make latch halves = .ok s := ⟨_, rfl⟩
  obtain ⟨hcheck, hagree⟩ := checkSafety_agrees Relation.make_toggle hconstraints (.const true)
    hlabels hs hslices (.inl rfl)
  obtain ⟨response, hresponse, -, hsame⟩ := hagree _ (hcheck false)
  have hloop : ∀ q ∈ latch.automaton.accepting, ∃ e ∈ latch.automaton.edges,
      e.source = q ∧ e.target = q ∧ e.label = .const true :=
    List.forall_mem_singleton.mpr ⟨_, List.mem_cons_of_mem _ List.mem_cons_self, rfl, rfl, rfl⟩
  have hnext : ∀ s : State latch.relation.numVars,
      Allowed [(Diagram.literal (0 : Fin 2) true).xor (Diagram.literal 1 true)] s fun i => !s i := by
    intro s
    refine List.forall_mem_singleton.mpr ?_
    rw [Diagram.eval_xor, Diagram.eval_literal, Diagram.eval_literal]
    change ((s ⟨0, by decide⟩ == true) != ((!s ⟨0, by decide⟩) == true)) = true
    cases s ⟨0, by decide⟩ <;> rfl
  -- From the state in which the variable is true one step leads to the accepting automaton state.
  have hviolated : latch.checkSafety.violated = true := by
    have hp := Product.overStates_of_make Relation.make_toggle hconstraints hlabels
    rw [Product.checkSafety_violated_iff hp (.const true)]
    let raised : State latch.relation.numVars := fun _ => true
    refine ⟨(fun _ => false, ⟨1, by decide⟩), by decide, (raised, ⟨0, by decide⟩), ⟨rfl, by decide⟩,
      .single ⟨?_, _, List.mem_cons_self, rfl, rfl, ?_⟩⟩
    · exact (Relation.holds_iff Relation.make_toggle _).mpr (hnext raised)
    · rw [Diagram.HoldsAt, Diagram.eval_literal]
      rfl
  refine ⟨s, response, hs, hresponse, hviolated, ?_⟩
  rw [← hsame hloop fun _ s _ _ => ⟨_, hnext s⟩]
  exact hviolated

end Strategy
end SymbolicLtl
