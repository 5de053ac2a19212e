import SymbolicLtl.Proofs.Emptiness.FairStates
import SymbolicLtl.Proofs.Relation.StateCount
import SymbolicLtl.Proofs.Text.Decimal

/-!
The verdict of a check: the property is violated when some infinite run of the product is accepting,
and the witnesses are the reachable accepting states from which such a run starts.
-/
namespace SymbolicLtl

namespace Product

variable {n : Nat} {p : Product n}

theorem overStates_of_make {numVars : Int} {init : Diagram n} {constraints : List (Diagram n)}
    {method : Method} (hmake : Relation.make numVars init constraints method = .ok p.relation)
    (hconstraints : ∀ c ∈ constraints, c.DependsOnly fun v => v < 2 * p.relation.numVars)
    (hlabels : ∀ e ∈ p.automaton.edges, e.label.OverCurrent p.relation.numVars) :
    p.OverStates := by
  have hr := Relation.overStates_of_make hmake hconstraints
  exact ⟨hr.parts_ne_nil, hr.holds_congr, hlabels⟩

def Starts (p : Product n) (x : p.Node) : Prop :=
  p.relation.init.HoldsAt x.1 ∧ x.2 ∈ p.automaton.initial

theorem contains_start (x : p.Node) : Contains p.start x ↔ p.Starts x := by
  by_cases hx : x.2 ∈ p.automaton.initial <;>
    simp [Contains, Starts, start, Diagram.HoldsAt, hx]

theorem overCurrent_start (hinit : p.relation.init.OverCurrent p.relation.numVars) (q : Fin p.size) :
    (p.start q).OverCurrent p.relation.numVars := by
  rw [start, Family.get_ofFn]
  split_ifs
  · exact hinit
  · exact .const false

theorem search_start (hp : p.OverStates)
    (hinit : p.relation.init.OverCurrent p.relation.numVars) :
    ∃ found, (p.search .forward p.start none).result = .ok found ∧
      (∀ q, (found.or p.start q).OverCurrent p.relation.numVars) ∧
      ∀ y, Contains (found.or p.start) y ↔ ∃ x, p.Starts x ∧
        Relation.ReflTransGen (p.automaton.Step p.relation.Next) x y := by
  have hnone : ∀ q : Fin p.size,
      (Constraint.setAt (none : Constraint n) q).OverCurrent p.relation.numVars :=
    fun _ => .const true
  obtain ⟨found, hfound, hover, hiff⟩ :=
    @search_states n p hp .forward _ none (fun _ => rfl) (overCurrent_start hinit) hnone
  have hkeeps : p.Keeps .forward none = p.automaton.Step p.relation.Next := by
    funext x y
    simp [Keeps, StepTo, Constraint.setAt, Diagram.HoldsAt]
  refine ⟨found, hfound, fun q => ?_, fun y => ?_⟩
  · rw [StateSets.get_or]
    exact (hover q).or (overCurrent_start hinit q)
  · rw [contains_or, hiff, contains_start, hkeeps]
    simp only [contains_start, Relation.reflTransGen_iff_eq_or_transGen]
    constructor
    · rintro (⟨x, hx, hpath⟩ | hy)
      · exact ⟨x, hx, .inr hpath⟩
      · exact ⟨y, hy, .inl rfl⟩
    · rintro ⟨x, hx, rfl | hpath⟩
      · exact .inr hx
      · exact .inl ⟨x, hx, hpath⟩

theorem overCurrent_meet {k : Nat} {sets : List (StateSets n p.size)} {q : Fin p.size}
    (h : ∀ v ∈ sets, (v q).OverCurrent k) {d : Diagram n} (hd : d.OverCurrent k) :
    (sets.foldl (fun acc v => acc.and (v q)) d).OverCurrent k := by
  induction sets generalizing d with
  | nil => exact hd
  | cons v sets ih =>
    rw [List.forall_mem_cons] at h
    exact ih h.2 (hd.and h.1)

theorem holdsAt_meet {k : Nat} (sets : List (StateSets n p.size)) (q : Fin p.size) (d : Diagram n)
    (s : State k) : (sets.foldl (fun acc v => acc.and (v q)) d).HoldsAt s ↔
      d.HoldsAt s ∧ ∀ v ∈ sets, (v q).HoldsAt s := by
  induction sets generalizing d with
  | nil => simp
  | cons v sets ih =>
    rw [List.foldl_cons, ih, List.forall_mem_cons, ← and_assoc]
    simp [Diagram.HoldsAt]

/-- The witnesses are the accepting automaton states at which some state is in all sets, in
increasing order, each with the number of such states. -/
theorem witnesses_exact {sets : List (StateSets n p.size)}
    (hsets : ∀ v ∈ sets, ∀ q, (v q).OverCurrent p.relation.numVars) :
    ∃ qs : List (Fin p.size), qs.Pairwise (· < ·) ∧
      (∀ q, q ∈ qs ↔ q ∈ p.automaton.accepting ∧ ∃ s, ∀ v ∈ sets, Contains v (s, q)) ∧
      p.witnesses sets = qs.map fun q => (q, Nat.card { s // ∀ v ∈ sets, Contains v (s, q) }) := by
  let meet (q : Fin p.size) : Diagram n := sets.foldl (fun acc v => acc.and (v q)) (.const true)
  have hover : ∀ q, (meet q).OverCurrent p.relation.numVars := fun q =>
    overCurrent_meet (fun v hv => hsets v hv q) (.const true)
  have hmeet : ∀ q s, (meet q).HoldsAt s ↔ ∀ v ∈ sets, Contains v (s, q) := by
    intro q s
    rw [holdsAt_meet]
    simp [Diagram.HoldsAt, Contains]
  have hfalse : ∀ q, (meet q).isFalse = false ↔ ∃ s, ∀ v ∈ sets, Contains v (s, q) := by
    intro q
    rw [← Bool.not_eq_true, Diagram.isFalse_iff]
    simp only [not_forall, Bool.not_eq_false, (hover q).eval_eq_true, hmeet]
    constructor
    · rintro ⟨ρ, hρ⟩
      exact ⟨_, hρ⟩
    · rintro ⟨s, hs⟩
      exact ⟨s.pair s, by rwa [State.current_pair]⟩
  refine ⟨p.automaton.acceptingStates.filter fun q => !(meet q).isFalse, ?_, fun q => ?_, ?_⟩
  · exact ((List.pairwise_lt_finRange _).filter _).filter _
  · simp [Automaton.acceptingStates, Automaton.states, hfalse, and_comm]
  · have hcount : ∀ q, p.relation.stateCount (meet q) =
        Nat.card { s // ∀ v ∈ sets, Contains v (s, q) } := by
      intro q
      rw [Relation.stateCount_eq_card _ (hover q)]
      exact Nat.card_congr (Equiv.subtypeEquivRight (hmeet q))
    simp only [← hcount]
    rw [← List.filterMap_eq_map, List.filterMap_filter]
    refine List.filterMap_congr fun q _ => ?_
    change (if (meet q).isFalse then none else some (q, p.relation.stateCount (meet q))) = _
    cases (meet q).isFalse <;> rfl

def Fair (p : Product n) (T : State p.relation.numVars → State p.relation.numVars → Prop)
    (x : p.Node) : Prop :=
  (∃ x₀, p.Starts x₀ ∧ Relation.ReflTransGen (p.automaton.Step T) x₀ x) ∧
    Recurs (p.automaton.Step T) (fun y => y.2 ∈ p.automaton.accepting) x

theorem recurs_reachable {R : p.Node → p.Node → Prop} {A S Z : p.Node → Prop}
    (hZ : ∀ y, Z y ↔ ∃ x, S x ∧ Relation.ReflTransGen R x y) {x : p.Node} (hx : Z x) :
    Recurs (fun y z => R y z ∧ Z y) A x ↔ Recurs R A x := by
  refine ⟨fun h => h.mono fun _ _ => And.left, ?_⟩
  rintro ⟨f, rfl, hstep, hmeet⟩
  have hreach : ∀ i, Z (f i) := by
    intro i
    induction i with
    | zero => exact hx
    | succ i ih =>
      obtain ⟨x₀, hx₀, hpath⟩ := (hZ _).mp ih
      exact (hZ _).mpr ⟨x₀, hx₀, hpath.tail (hstep i)⟩
  exact ⟨f, rfl, fun i => ⟨hstep i, hreach i⟩, hmeet⟩

/-- An accepting run from an initial state passes through fair accepting states. -/
theorem exists_fair_iff (T : State p.relation.numVars → State p.relation.numVars → Prop) :
    (∃ q ∈ p.automaton.accepting, ∃ s, p.Fair T (s, q)) ↔ ∃ x, p.Starts x ∧
      Recurs (p.automaton.Step T) (fun y => y.2 ∈ p.automaton.accepting) x := by
  constructor
  · rintro ⟨q, -, s, ⟨x₀, hx₀, hpath⟩, hrun⟩
    exact ⟨x₀, hx₀, hrun.of_reflTransGen hpath⟩
  · rintro ⟨x, hx, f, rfl, hstep, hmeet⟩
    obtain ⟨i, -, hi⟩ := hmeet 0
    have hpath : Relation.ReflTransGen (p.automaton.Step T) (f 0) (f i) :=
      Nat.rel_of_forall_rel_succ_of_le _ (fun k => .single (hstep k)) (Nat.zero_le i)
    exact ⟨(f i).2, hi, (f i).1, ⟨f 0, hx, hpath⟩, recurs_of_run hstep hmeet i⟩

end Product

namespace Strategy

variable {n : Nat} {p : Product n}

theorem check_fair (hp : p.OverStates) (hinit : p.relation.init.OverCurrent p.relation.numVars)
    {s : Strategy p} (hs : s.engine = .sequential) (verbose : Bool) :
    ∃ (qs : List (Fin p.size)) (statistic : Statistic),
      qs.Pairwise (· < ·) ∧
      (∀ q, q ∈ qs ↔ q ∈ p.automaton.accepting ∧ ∃ s, p.Fair p.relation.Next (s, q)) ∧
      (s.check verbose).result = .ok (Product.respond false
        (qs.map fun q => (q, Nat.card { s // q ∈ p.automaton.accepting ∧
          p.Fair p.relation.Next (s, q) })) statistic) := by
  obtain ⟨found, hfound, hover, hreach⟩ := Product.search_start hp hinit
  obtain ⟨hresult, hengine⟩ := reachable_sequential hs .forward p.start none
  obtain ⟨sets, m, hsets, hsover, hfair⟩ := fairStates_exact hp hover verbose hengine
  have hboth : ∀ v ∈ [found.or p.start, sets], ∀ q, (v q).OverCurrent p.relation.numVars :=
    List.forall_mem_cons.mpr ⟨hover, List.forall_mem_singleton.mpr hsover⟩
  obtain ⟨qs, hsorted, hmem, hwitnesses⟩ := Product.witnesses_exact hboth
  have hall : ∀ s q, (∀ v ∈ [found.or p.start, sets], Product.Contains v (s, q)) ↔
      q ∈ p.automaton.accepting ∧ p.Fair p.relation.Next (s, q) := by
    intro s q
    simp only [List.forall_mem_cons, List.not_mem_nil, false_implies, implies_true, and_true, hfair]
    constructor
    · rintro ⟨hr, hacc, hrun⟩
      exact ⟨hacc, (hreach _).mp hr, (Product.recurs_reachable hreach hr).mp hrun⟩
    · rintro ⟨hacc, hr, hrun⟩
      have hr := (hreach (s, q)).mpr hr
      exact ⟨hr, hacc, (Product.recurs_reachable hreach hr).mpr hrun⟩
  let fair := (s.reachable .forward p.start none).strategy.fairStates
    (some (found.or p.start).toList) verbose
  refine ⟨qs, ⟨s.name, m, fair.strategy.work⟩, hsorted, fun q => ?_, ?_⟩
  · rw [hmem]
    simp only [hall, exists_and_left, and_self_left]
  · simp only [hall] at hwitnesses
    rw [← hwitnesses]
    simp only [check, hresult, hfound, hsets]
    rfl

/-- A check by one search always answers. It finds a violation when an infinite path of the product
from an initial state meets accepting states again and again. The violating automaton states are
those at which a reachable state starts such a path, in increasing order, each with the number of
such states. -/
theorem check_sequential_exact {numVars : Int} {init : Diagram n} {constraints : List (Diagram n)}
    {method : Method} (hmake : Relation.make numVars init constraints method = .ok p.relation)
    (hconstraints : ∀ c ∈ constraints, c.DependsOnly fun v => v < 2 * p.relation.numVars)
    (hinit : init.OverCurrent p.relation.numVars)
    (hlabels : ∀ e ∈ p.automaton.edges, e.label.OverCurrent p.relation.numVars)
    (verbose noisy : Bool) :
    ∃ response, ((sequential p verbose).check noisy).result = .ok response ∧
      (response.violated = true ↔ ∃ x : p.Node, init.HoldsAt x.1 ∧ x.2 ∈ p.automaton.initial ∧
        Recurs (p.automaton.Step (Allowed constraints)) (fun y => y.2 ∈ p.automaton.accepting) x) ∧
      ∃ qs : List (Fin p.size), qs.Pairwise (· < ·) ∧
        (∀ q, q ∈ qs ↔ q ∈ p.automaton.accepting ∧ ∃ s, p.Fair (Allowed constraints) (s, q)) ∧
        response.violating = qs.map (fun q => (q.val : Int)) ∧
        response.witnesses =
          qs.map fun q => toString (Nat.card { s // p.Fair (Allowed constraints) (s, q) }) := by
  have hstart : p.relation.init = init := (Relation.make_eq_ok hmake).2.1
  have hnext : p.relation.Next = Allowed constraints := by
    funext s s'
    exact propext (Relation.holds_iff hmake _)
  obtain ⟨qs, statistic, hsorted, hmem, hcheck⟩ :=
    @check_fair n p (Product.overStates_of_make hmake hconstraints hlabels) (hstart ▸ hinit)
      (sequential p verbose) rfl noisy
  rw [hnext] at hmem hcheck
  refine ⟨_, hcheck, ?_, qs, hsorted, hmem, ?_, ?_⟩
  · have hempty : (Product.respond false (qs.map fun q => (q, Nat.card { s //
        q ∈ p.automaton.accepting ∧ p.Fair (Allowed constraints) (s, q) })) statistic).violated =
          true ↔ ∃ q, q ∈ qs := by
      cases qs <;> simp [Product.respond, Response.violated]
    rw [hempty, ← hstart]
    simp only [hmem, ← and_assoc]
    exact Product.exists_fair_iff (Allowed constraints)
  · simp [Product.respond]
  · simp only [Product.respond, List.map_map, Text.decimal_eq]
    refine List.map_congr_left fun q hq => ?_
    simp [((hmem q).mp hq).1]

/-- One variable that changes in every step, and an automaton that follows its values. -/
def toggle : Product 2 where
  relation := .toggle
  automaton :=
    let first : Fin 2 := ⟨0, Nat.zero_lt_two⟩
    let second : Fin 2 := ⟨1, Nat.one_lt_two⟩
    ⟨2, [⟨first, second, .literal first true⟩, ⟨second, first, .literal first false⟩], [first],
      [second]⟩

/-- The automaton accepts the run of a variable that changes in every step. -/
theorem check_toggle_violated : ∃ response, ((sequential toggle false).check false).result =
    .ok response ∧ response.violated = true := by
  have hconstraints : ∀ c ∈ [(Diagram.literal (0 : Fin 2) true).xor (Diagram.literal 1 true)],
      c.DependsOnly fun v => v < 2 * toggle.relation.numVars :=
    List.forall_mem_singleton.mpr (.combine _ (.literal (by decide) _) (.literal (by decide) _))
  have hcurrent : IsCurrent toggle.relation.numVars 0 := ⟨by decide, rfl⟩
  have hlabels : ∀ e ∈ toggle.automaton.edges, e.label.OverCurrent toggle.relation.numVars :=
    List.forall_mem_cons.mpr ⟨.literal hcurrent _,
      List.forall_mem_singleton.mpr (.literal hcurrent _)⟩
  obtain ⟨response, hresult, hviolated, -⟩ :=
    check_sequential_exact Relation.make_toggle hconstraints (.const true) hlabels false false
  refine ⟨response, hresult, hviolated.mpr ?_⟩
  -- The variable is true at even places, where the automaton is in its first state.
  let f : Nat → toggle.Node := fun i => (fun _ => i % 2 == 0, ⟨i % 2, Nat.mod_lt i (by decide)⟩)
  refine ⟨f 0, by simp [Diagram.HoldsAt], by decide, f, rfl, fun i => ?_, fun m => ?_⟩
  · refine ⟨List.forall_mem_singleton.mpr ?_, ?_⟩
    · rw [Diagram.eval_xor, Diagram.eval_literal, Diagram.eval_literal]
      change (((i % 2 == 0) == true) != (((i + 1) % 2 == 0) == true)) = true
      rcases Nat.mod_two_eq_zero_or_one i with hi | hi <;> simp [Nat.add_mod, hi]
    · rcases Nat.mod_two_eq_zero_or_one i with hi | hi
      · refine ⟨_, List.mem_cons_self, Fin.ext hi.symm, Fin.ext ?_, ?_⟩
        · change 1 = (i + 1) % 2
          omega
        · rw [Diagram.HoldsAt, Diagram.eval_literal]
          change ((i % 2 == 0) == true) = true
          simp [hi]
      · refine ⟨_, List.mem_cons_of_mem _ List.mem_cons_self, Fin.ext hi.symm, Fin.ext ?_, ?_⟩
        · change 0 = (i + 1) % 2
          omega
        · rw [Diagram.HoldsAt, Diagram.eval_literal]
          change ((i % 2 == 0) == false) = true
          simp [hi]
  · refine ⟨2 * m + 1, by omega, List.mem_singleton.mpr (Fin.ext ?_)⟩
    change (2 * m + 1) % 2 = 1
    omega

end Strategy
end SymbolicLtl
