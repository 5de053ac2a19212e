import SymbolicLtl.Proofs.Emptiness.Verdict
import SymbolicLtl.Proofs.Reachability.ForkJoin

/-!
The iterations of one search, one by one. After `k` of them the sets hold the states at the ends of the
paths of one to `k` steps that keep to the limit: along the edges the paths from a start, against them
the paths to it. Against the edges it makes no difference whether all that an iteration finds is joined
at its end, or what each edge adds is joined at once.
-/
namespace SymbolicLtl

section Paths

variable {α : Type} {R : α → α → Prop} {start : α → Prop}

def Path (R : α → α → Prop) (m : Nat) (x y : α) : Prop :=
  ∃ f : Nat → α, f 0 = x ∧ f m = y ∧ ∀ i < m, R (f i) (f (i + 1))

theorem path_zero {x y : α} : Path R 0 x y ↔ x = y := by
  constructor
  · rintro ⟨f, rfl, rfl, -⟩
    rfl
  · rintro rfl
    exact ⟨fun _ => x, rfl, rfl, fun i hi => absurd hi (Nat.not_lt_zero i)⟩

theorem path_succ {m : Nat} {x y : α} : Path R (m + 1) x y ↔ ∃ z, Path R m x z ∧ R z y := by
  constructor
  · rintro ⟨f, rfl, rfl, hstep⟩
    exact ⟨f m, ⟨f, rfl, rfl, fun i hi => hstep i (by omega)⟩, hstep m (by omega)⟩
  · rintro ⟨z, ⟨f, rfl, rfl, hstep⟩, hzy⟩
    refine ⟨fun i => if i ≤ m then f i else y, by simp, by simp, fun i hi => ?_⟩
    obtain hi | rfl : i < m ∨ i = m := by omega
    · simpa [hi, hi.le] using hstep i hi
    · simpa using hzy

theorem path_swap {m : Nat} {x y : α} : Path (fun a b => R b a) m x y ↔ Path R m y x := by
  have hswap : ∀ {S : α → α → Prop} {x y : α}, Path (fun a b => S b a) m x y → Path S m y x := by
    rintro S x y ⟨f, rfl, rfl, hstep⟩
    refine ⟨fun i => f (m - i), by simp, by simp, fun i hi => ?_⟩
    have hlast := hstep (m - (i + 1)) (by omega)
    rwa [show m - (i + 1) + 1 = m - i by omega] at hlast
  exact ⟨hswap, hswap⟩

theorem within_iff_path {k : Nat} {y : α} :
    Within R start k y ↔ ∃ x m, start x ∧ 1 ≤ m ∧ m ≤ k ∧ Path R m x y := by
  induction k generalizing y with
  | zero =>
    refine iff_of_false id ?_
    rintro ⟨x, m, -, hpos, hzero, -⟩
    omega
  | succ k ih =>
    constructor
    · rintro ⟨z, hz | hz, hzy⟩
      · exact ⟨z, 1, hz, le_rfl, by omega, path_succ.mpr ⟨z, path_zero.mpr rfl, hzy⟩⟩
      · obtain ⟨x, m, hx, hpos, hle, hpath⟩ := ih.mp hz
        exact ⟨x, m + 1, hx, by omega, by omega, path_succ.mpr ⟨z, hpath, hzy⟩⟩
    · rintro ⟨x, m, hx, hpos, hle, hpath⟩
      obtain ⟨m, rfl⟩ : ∃ j, m = j + 1 := ⟨m - 1, by omega⟩
      obtain ⟨z, hpath, hzy⟩ := path_succ.mp hpath
      refine ⟨z, ?_, hzy⟩
      cases m with
      | zero =>
        obtain rfl := path_zero.mp hpath
        exact .inl hx
      | succ m => exact .inr (ih.mpr ⟨x, m + 1, hx, by omega, by omega, hpath⟩)

theorem exists_within_iff_path {y : α} :
    (∃ k, Within R start k y) ↔ ∃ x m, start x ∧ 1 ≤ m ∧ Path R m x y := by
  simp only [within_iff_path]
  constructor
  · rintro ⟨k, x, m, hx, hpos, -, hpath⟩
    exact ⟨x, m, hx, hpos, hpath⟩
  · rintro ⟨x, m, hx, hpos, hpath⟩
    exact ⟨m, x, m, hx, hpos, le_rfl, hpath⟩

end Paths

namespace Search

variable {n k : Nat} {R : Fin k × (Nat → Bool) → Fin k × (Nat → Bool) → Prop}
  {start : Fin k × (Nat → Bool) → Prop} {i : Nat} {reach : StateSets n k}

/-- A search goes on from layer `i`, one layer an iteration, and the last one is its result. -/
structure Traverses (R : Fin k × (Nat → Bool) → Fin k × (Nat → Bool) → Prop)
    (start : Fin k × (Nat → Bool) → Prop) (i : Nat) (reach : StateSets n k) (s : Search n k)
    (v : StateSets n k) : Prop where
  result : s.result = .ok v
  iterations : s.iterations = s.history.length
  last : (reach :: s.history).getLast? = some v
  layers : ∀ j sets, (reach :: s.history)[j]? = some sets →
    ∀ y, sets.Has y ↔ Within R start (i + j) y

theorem Traverses.preceded {s : Search n k} {next v : StateSets n k}
    (h : Traverses R start (i + 1) next s v) (hreach : ∀ y, reach.Has y ↔ Within R start i y)
    (images : Nat) : Traverses R start i reach (s.preceded next images) v where
  result := h.result
  iterations := congrArg (· + 1) h.iterations
  last := by
    rw [Search.preceded, List.getLast?_cons, h.last]
    rfl
  layers j sets hsets := by
    cases j with
    | zero =>
      obtain rfl : reach = sets := by simpa using hsets
      exact hreach
    | succ j =>
      rw [List.getElem?_cons_succ] at hsets
      rw [show i + (j + 1) = i + 1 + j by omega]
      exact h.layers j sets hsets

/-- Exact iterations go from layer to layer. -/
theorem exists_traverses {step : Stepper n k} {Inv : StateSets n k → Prop}
    (hstep : Exact step R Inv) {m : Nat} {frontier : StateSets n k} (hreach : Inv reach)
    (hfrontier : Inv frontier) (hlayer : Layer R start i reach frontier) :
    ∃ v, Traverses R start i reach (saturate step m reach frontier) v := by
  fun_induction saturate step m reach frontier generalizing i with
  | case1 m reach frontier hempty =>
    refine ⟨reach, rfl, rfl, rfl, fun j sets hsets => ?_⟩
    obtain ⟨rfl, rfl⟩ : j = 0 ∧ reach = sets := by
      cases j with
      | zero => exact ⟨rfl, Option.some.inj hsets⟩
      | succ j => cases hsets
    exact hlayer.reached
  | case2 m reach frontier hempty e he =>
    obtain ⟨round, hround, -⟩ := hstep.round m hreach hfrontier
    rw [hround] at he
    cases he
  | case3 m reach frontier hempty round hround ih =>
    obtain ⟨round', hround', hfresh, hhas⟩ := hstep.round m hreach hfrontier
    obtain rfl : round = round' := Except.ok.inj (hround.symm.trans hround')
    obtain ⟨v, hv⟩ := ih (hstep.or hreach hfresh) hfresh (hlayer.step hhas)
    exact ⟨v, hv.preceded hlayer.reached round.images⟩

/-- A search in which `m` more layers grow, and the one behind them does not, takes an iteration for each
of them and one to see the end. -/
theorem iterations_saturate {step : Stepper n k} {Inv : StateSets n k → Prop}
    (hstep : Exact step R Inv) {m c : Nat} {frontier : StateSets n k} (hreach : Inv reach)
    (hfrontier : Inv frontier) (hlayer : Layer R start i reach frontier)
    (hne : ¬ frontier.isEmpty = true)
    (hgrow : ∀ j < m, ∃ y, Within R start (i + j + 1) y ∧ ¬ Within R start (i + j) y)
    (hstable : ∀ y, Within R start (i + m + 1) y → Within R start (i + m) y) :
    (saturate step c reach frontier).iterations = m + 1 := by
  fun_induction saturate step c reach frontier generalizing i m with
  | case1 c reach frontier hempty => exact absurd hempty hne
  | case2 c reach frontier _ e he =>
    obtain ⟨round, hround, -⟩ := hstep.round c hreach hfrontier
    rw [hround] at he
    cases he
  | case3 c reach frontier _ round hround ih =>
    obtain ⟨round', hround', hfresh, hhas⟩ := hstep.round c hreach hfrontier
    obtain rfl : round = round' := Except.ok.inj (hround.symm.trans hround')
    have hnext := hlayer.step hhas
    rw [preceded, Nat.add_right_cancel_iff]
    cases m with
    | zero =>
      have hempty : round.fresh.isEmpty = true := by
        apply StateSets.isEmpty_of_not_has
        intro y hy
        have hin : Within R start i y :=
          hstable y ((hnext.reached y).mp ((StateSets.has_or _ _ _).mpr (.inr hy)))
        exact ((hhas y).mp hy).2 ((hlayer.reached y).mpr hin)
      unfold saturate
      rw [dif_pos hempty]
    | succ m =>
      apply ih (hstep.or hreach hfresh) hfresh hnext
      · obtain ⟨y, hy, hnew⟩ := hgrow 0 (by omega)
        have hold : ¬ reach.Has y := fun hold => hnew ((hlayer.reached y).mp hold)
        have hstep := ((hlayer.next y).mp hy).resolve_left hold
        intro hempty
        exact StateSets.not_has_of_isEmpty hempty y ((hhas y).mpr ⟨hstep, hold⟩)
      · intro j hj
        rw [Nat.add_right_comm i 1 j]
        exact hgrow (j + 1) (by omega)
      · rw [Nat.add_right_comm i 1 m]
        exact hstable

end Search

namespace Product

variable {n : Nat} {p : Product n}

/-- A search among sets of states finds in each iteration the states that are one step further away. -/
theorem search_layers (hp : p.OverStates) (dir : Direction) {start : StateSets n p.size}
    (hstart : ∀ q, (start q).OverCurrent p.relation.numVars) {limit : Constraint n}
    (hcov : ∀ q : Fin p.size, limit.covers q = true)
    (hlimit : ∀ q : Fin p.size, (limit.setAt q).OverCurrent p.relation.numVars) :
    let search := p.search dir start limit
    ∃ v, search.result = .ok v ∧ search.iterations = search.history.length ∧
      (StateSets.none :: search.history).getLast? = some v ∧
      ∀ k sets, (StateSets.none :: search.history)[k]? = some sets →
        (∀ q, (sets q).OverCurrent p.relation.numVars) ∧
          ∀ y, Contains sets y ↔ Within (p.Keeps dir limit) (Contains start) k y := by
  obtain ⟨step, Inv, hsearch, hexact, hinv⟩ :=
    exists_exact hp.parts_ne_nil hcov (hp.admits dir hstart hlimit)
  obtain ⟨v, hv⟩ := @Search.exists_traverses _ _ _ _ 0 .none step Inv hexact 1 start hexact.none hinv
    (.first start)
  rw [hsearch]
  refine ⟨v, hv.result, hv.iterations, hv.last, fun k sets hsets => states_of_has fun y => ?_⟩
  rw [hv.layers k sets hsets y, Nat.zero_add]
  exact within_has_iff hp hstart hlimit k y

theorem search_iterations (hp : p.OverStates) {dir : Direction} {start : StateSets n p.size}
    (hstart : ∀ q, (start q).OverCurrent p.relation.numVars) {limit : Constraint n}
    (hcov : ∀ q : Fin p.size, limit.covers q = true)
    (hlimit : ∀ q : Fin p.size, (limit.setAt q).OverCurrent p.relation.numVars)
    (hsome : ∃ x, Contains start x) {m : Nat}
    (hgrow : ∀ j < m, ∃ y, Within (p.Keeps dir limit) (Contains start) (j + 1) y ∧
      ¬ Within (p.Keeps dir limit) (Contains start) j y)
    (hstable : ∀ y, Within (p.Keeps dir limit) (Contains start) (m + 1) y →
      Within (p.Keeps dir limit) (Contains start) m y) :
    (p.search dir start limit).iterations = m + 1 := by
  obtain ⟨step, Inv, hsearch, hexact, hinv⟩ :=
    exists_exact hp.parts_ne_nil hcov (hp.admits dir hstart hlimit)
  have hwithin := @within_has_iff n p hp dir start limit hstart hlimit
  rw [hsearch]
  apply Search.iterations_saturate hexact hexact.none hinv (.first start)
  · obtain ⟨x, hx⟩ := hsome
    intro hempty
    exact StateSets.not_has_of_isEmpty hempty (x.2, x.1.pair x.1) hx
  · intro j hj
    obtain ⟨y, hy, hnew⟩ := hgrow j hj
    have hnode : Point.node (p := p) (y.2, y.1.pair y.1) = y := by
      rw [Point.node, State.current_pair]
    refine ⟨(y.2, y.1.pair y.1), ?_, ?_⟩
    · rw [hwithin, Nat.zero_add, hnode]
      exact hy
    · rw [hwithin, Nat.zero_add, hnode]
      exact hnew
  · intro y hy
    rw [hwithin, Nat.zero_add] at hy ⊢
    exact hstable _ hy

/-- Takes one edge against its direction: what it adds to the set at its source is joined at once to the
sets reached, and to the new states. -/
def relax (limit : Constraint n) (images : StateSets n p.size)
    (sets : StateSets n p.size × StateSets n p.size) (e : Edge n p.size) :
    StateSets n p.size × StateSets n p.size :=
  let gain := (((images e.target).and e.label).and (limit.setAt e.source)).diff (sets.1 e.source)
  (sets.1.set e.source ((sets.1 e.source).or gain), sets.2.set e.source ((sets.2 e.source).or gain))

/-- Takes the edges into one automaton state after the other, where there are predecessors. -/
def sweep (p : Product n) (limit : Constraint n) (images reach : StateSets n p.size) :
    StateSets n p.size × StateSets n p.size :=
  (List.finRange p.size).foldl (fun sets q =>
    if (images q).isFalse then sets else (p.automaton.incoming q).foldl (relax limit images) sets)
    (reach, .none)

def Yields (limit : Constraint n) (images : StateSets n p.size) (e : Edge n p.size) (y : p.Point) :
    Prop :=
  e.source = y.1 ∧ (images e.target).eval y.2 = true ∧ e.label.eval y.2 = true ∧
    (limit.setAt y.1).eval y.2 = true

structure Swept (reach : StateSets n p.size) (found : p.Point → Prop)
    (sets : StateSets n p.size × StateSets n p.size) : Prop where
  reached : ∀ y, sets.1.Has y ↔ reach.Has y ∨ found y
  fresh : ∀ y, sets.2.Has y ↔ found y ∧ ¬ reach.Has y

theorem has_set_or (v : StateSets n p.size) (q : Fin p.size) (d : Diagram n) (y : p.Point) :
    StateSets.Has (v.set q ((v q).or d)) y ↔ v.Has y ∨ q = y.1 ∧ d.eval y.2 = true := by
  rw [StateSets.Has, Family.get_set]
  by_cases hy : y.1 = q
  · simp [StateSets.Has, hy]
  · simp [StateSets.Has, hy, Ne.symm hy]

/-- One edge adds what it leads back to, and no more. -/
theorem Swept.relax {reach : StateSets n p.size} {found : p.Point → Prop}
    {sets : StateSets n p.size × StateSets n p.size} (h : Swept reach found sets)
    (limit : Constraint n) (images : StateSets n p.size) (e : Edge n p.size) :
    Swept reach (fun y => found y ∨ Yields limit images e y) (relax limit images sets e) := by
  have hgain : ∀ y : p.Point, (e.source = y.1 ∧
      ((((images e.target).and e.label).and (limit.setAt e.source)).diff (sets.1 e.source)).eval y.2 =
        true) ↔ Yields limit images e y ∧ ¬ (reach.Has y ∨ found y) := by
    intro y
    rw [← h.reached, Yields, StateSets.Has, and_assoc]
    refine and_congr_right fun hy => ?_
    rw [← hy]
    simp [and_assoc]
  constructor
  · intro y
    rw [Product.relax, has_set_or, h.reached, hgain]
    tauto
  · intro y
    rw [Product.relax, has_set_or, h.fresh, hgain]
    tauto

theorem Swept.foldl {reach : StateSets n p.size} {found : p.Point → Prop}
    {sets : StateSets n p.size × StateSets n p.size} (h : Swept reach found sets)
    (limit : Constraint n) (images : StateSets n p.size) (edges : List (Edge n p.size)) :
    Swept reach (fun y => found y ∨ ∃ e ∈ edges, Yields limit images e y)
      (edges.foldl (Product.relax limit images) sets) := by
  induction edges generalizing found sets with
  | nil => simpa using h
  | cons e edges ih =>
    have hrest := ih (h.relax limit images e)
    simpa only [List.foldl_cons, List.exists_mem_cons_iff, or_assoc] using hrest

theorem sweep_eq_foldl (limit : Constraint n) (images reach : StateSets n p.size) :
    p.sweep limit images reach = ((List.finRange p.size).flatMap fun q =>
      if (images q).isFalse then [] else p.automaton.incoming q).foldl (relax limit images)
        (reach, .none) := by
  rw [List.foldl_flatMap, sweep]
  congr 1
  funext sets q
  split_ifs <;> rfl

/-- Joining what each edge adds at once comes to the same as joining all that is new at the end. -/
theorem sweep_eq (limit : Constraint n) (images reach : StateSets n p.size) :
    let fresh := newStates limit reach (p.entries images)
    p.sweep limit images reach = (reach.or fresh, fresh) := by
  intro fresh
  have hstart : Swept reach (fun _ => False) (reach, (StateSets.none : StateSets n p.size)) :=
    ⟨by simp, by simp⟩
  have hswept := hstart.foldl limit images ((List.finRange p.size).flatMap fun q =>
    if (images q).isFalse then [] else p.automaton.incoming q)
  rw [← sweep_eq_foldl] at hswept
  -- An edge that is left out has no predecessors to lead back to.
  have hfound : ∀ y : p.Point, (False ∨ ∃ e ∈ (List.finRange p.size).flatMap fun q =>
      if (images q).isFalse then [] else p.automaton.incoming q, Yields limit images e y) ↔
        (p.entries images).Has y ∧ (limit.setAt y.1).eval y.2 = true := by
    intro y
    rw [StateSets.Has, eval_entries, false_or]
    constructor
    · rintro ⟨e, he, hsource, himage, hlabel, hlimit⟩
      obtain ⟨q, -, he⟩ := List.mem_flatMap.mp he
      split_ifs at he
      · cases he
      · exact ⟨⟨e, (List.mem_filter.mp he).1, hsource, himage, hlabel⟩, hlimit⟩
    · rintro ⟨⟨e, he, hsource, himage, hlabel⟩, hlimit⟩
      refine ⟨e, List.mem_flatMap.mpr ⟨e.target, List.mem_finRange _, ?_⟩, hsource, himage, hlabel,
        hlimit⟩
      have hsome : ¬ (images e.target).isFalse = true := by
        intro hfalse
        rw [Diagram.isFalse_iff] at hfalse
        simp [hfalse] at himage
      rw [if_neg hsome]
      exact List.mem_filter.mpr ⟨he, by simp⟩
  refine Prod.ext (StateSets.ext_has fun y => ?_) (StateSets.ext_has fun y => ?_)
  · rw [hswept.reached, hfound, StateSets.has_or, has_newStates]
    tauto
  · rw [hswept.fresh, hfound, has_newStates]

/-- An iteration against the edges may take them one by one. -/
theorem backwardStep_eq_sweep {limit : Constraint n} (hcov : ∀ q : Fin p.size, limit.covers q = true)
    {i : Nat} {reach frontier : StateSets n p.size} {round : Round reach}
    (h : p.backwardStep limit i reach frontier = .ok round) :
    ∃ images : StateSets n p.size, (∀ q, p.relation.preImage (frontier q) = .ok (images q)) ∧
      p.sweep limit images reach = (reach.or round.fresh, round.fresh) := by
  rw [backwardStep, ForkJoin.enteringImage_eq hcov] at h
  cases himages : Family.collect p.size fun q => p.relation.image .backward (frontier q) with
  | error e =>
    rw [himages] at h
    cases h
  | ok images =>
    rw [himages] at h
    obtain rfl := Except.ok.inj h
    exact ⟨images, Family.collect_eq_ok_iff.mp himages, sweep_eq limit images reach⟩

end Product

namespace Strategy

variable {n : Nat} {p : Product n}

theorem reachable_layers (hp : p.OverStates) {s : Strategy p} (hs : s.engine = .sequential)
    (dir : Direction) {start : StateSets n p.size}
    (hstart : ∀ q, (start q).OverCurrent p.relation.numVars) {limit : Constraint n}
    (hcov : ∀ q : Fin p.size, limit.covers q = true)
    (hlimit : ∀ q : Fin p.size, (limit.setAt q).OverCurrent p.relation.numVars) :
    let passage := s.reachable dir start limit
    ∃ found, passage.result = .ok found ∧
      passage.strategy.work.iterations = s.work.iterations + passage.history.length ∧
      (StateSets.none :: passage.history).getLast? = some found ∧
      (∀ k sets, passage.history[k]? = some sets →
        (∀ q, (sets q).OverCurrent p.relation.numVars) ∧
          ∀ y, Product.Contains sets y ↔ ∃ x m, Product.Contains start x ∧ 1 ≤ m ∧ m ≤ k + 1 ∧
            Path (p.Keeps dir limit) m x y) ∧
      (∀ q, (found q).OverCurrent p.relation.numVars) ∧
      ∀ y, Product.Contains found y ↔ ∃ x m, Product.Contains start x ∧ 1 ≤ m ∧
        Path (p.Keeps dir limit) m x y := by
  intro passage
  obtain ⟨event, hpassed⟩ := s.exists_reachable_eq hs dir start limit
  obtain ⟨found, hresult, hiterations, hlast, hlayers⟩ :=
    Product.search_layers hp dir hstart hcov hlimit
  obtain ⟨v, hv, hover, hfound⟩ := @Product.search_states n p hp dir start limit hcov hstart hlimit
  obtain rfl : found = v := Except.ok.inj (hresult.symm.trans hv)
  simp only [passage, hpassed]
  refine ⟨found, hresult, congrArg _ hiterations, hlast, fun k sets hsets => ?_, hover, fun y => ?_⟩
  · obtain ⟨hcurrent, hcontains⟩ := hlayers (k + 1) sets hsets
    exact ⟨hcurrent, fun y => (hcontains y).trans within_iff_path⟩
  · rw [hfound, ← exists_within_iff_path, exists_within_iff]

theorem pulse_overStates :
    (∀ c ∈ [(Diagram.literal (0 : Fin 2) true).xor (Diagram.literal 1 true)],
      c.DependsOnly fun v => v < 2 * ForkJoin.pulse.relation.numVars) ∧
    ∀ e ∈ ForkJoin.pulse.automaton.edges, e.label.OverCurrent ForkJoin.pulse.relation.numVars := by
  have hcurrent : IsCurrent ForkJoin.pulse.relation.numVars 0 := ⟨by decide, rfl⟩
  exact ⟨List.forall_mem_singleton.mpr (.combine _ (.literal (by decide) _) (.literal (by decide) _)),
    List.forall_mem_cons.mpr ⟨.const true, List.forall_mem_singleton.mpr (.literal hcurrent _)⟩⟩

theorem holdsAt_literal_iff (b c : Bool) :
    (Diagram.literal (0 : Fin 2) b).HoldsAt (fun _ : Fin 1 => c) ↔ c = b := by
  rw [Diagram.HoldsAt, Diagram.eval_literal]
  cases b <;> cases c <;> decide

theorem pulseStep_seen :
    let step : ForkJoin.pulse.Node → ForkJoin.pulse.Node → Prop := ForkJoin.pulse.automaton.Step
      (Allowed [(Diagram.literal (0 : Fin 2) true).xor (Diagram.literal 1 true)])
    step (fun _ => false, ⟨0, Nat.zero_lt_two⟩) (fun _ => true, ⟨0, Nat.zero_lt_two⟩) ∧
      step (fun _ => true, ⟨0, Nat.zero_lt_two⟩) (fun _ => false, ⟨1, Nat.one_lt_two⟩) := by
  have hallowed : ∀ b : Bool, Allowed [(Diagram.literal (0 : Fin 2) true).xor (Diagram.literal 1 true)]
      (fun _ : Fin 1 => b) (fun _ => !b) := by
    intro b
    refine List.forall_mem_singleton.mpr ?_
    rw [Diagram.eval_xor, Diagram.eval_literal, Diagram.eval_literal]
    cases b <;> rfl
  refine ⟨⟨hallowed false, _, List.mem_cons_self, rfl, rfl, ?_⟩,
    ⟨hallowed true, _, List.mem_cons_of_mem _ List.mem_cons_self, rfl, rfl, ?_⟩⟩
  · exact Diagram.eval_const ..
  · exact (holdsAt_literal_iff true true).mpr rfl

/-- A search along the edges ends. Its sets after `k + 1` iterations hold the states at the ends of the
paths of `1` to `k + 1` steps from a start that enter states of the limit only, and the sets found those
at the ends of such paths of any length. -/
theorem reachable_forward_layers {numVars : Int} {init : Diagram n} {constraints : List (Diagram n)}
    {method : Method} (hmake : Relation.make numVars init constraints method = .ok p.relation)
    (hconstraints : ∀ c ∈ constraints, c.DependsOnly fun v => v < 2 * p.relation.numVars)
    (hlabels : ∀ e ∈ p.automaton.edges, e.label.OverCurrent p.relation.numVars)
    {s : Strategy p} (hs : s.engine = .sequential) {start : StateSets n p.size}
    (hstart : ∀ q, (start q).OverCurrent p.relation.numVars) {limit : Constraint n}
    (hcov : ∀ q : Fin p.size, limit.covers q = true)
    (hlimit : ∀ q : Fin p.size, (limit.setAt q).OverCurrent p.relation.numVars) :
    let passage := s.reachable .forward start limit
    let enters : p.Node → p.Node → Prop := fun a b =>
      p.automaton.Step (Allowed constraints) a b ∧ (limit.setAt b.2).HoldsAt b.1
    ∃ found, passage.result = .ok found ∧
      passage.strategy.work.iterations = s.work.iterations + passage.history.length ∧
      (StateSets.none :: passage.history).getLast? = some found ∧
      (∀ k sets, passage.history[k]? = some sets →
        (∀ q, (sets q).OverCurrent p.relation.numVars) ∧
          ∀ y, Product.Contains sets y ↔ ∃ x m, Product.Contains start x ∧ 1 ≤ m ∧ m ≤ k + 1 ∧
            Path enters m x y) ∧
      (∀ q, (found q).OverCurrent p.relation.numVars) ∧
      ∀ y, Product.Contains found y ↔ ∃ x m, Product.Contains start x ∧ 1 ≤ m ∧
        Path enters m x y := by
  intro passage enters
  have hp := Product.overStates_of_make hmake hconstraints hlabels
  have hkeeps : p.Keeps .forward limit = enters := by
    funext a b
    rw [Product.Keeps, Product.StepTo, Relation.next_eq_allowed hmake]
  have hlayers := reachable_layers hp hs .forward hstart hcov hlimit
  rw [hkeeps] at hlayers
  exact hlayers

/-- Where waiting is for the value true only, the value false is seen after two steps, and waiting with
the value false, from where the search started, is not entered again. -/
theorem reachable_forward_pulse :
    let waiting : Fin ForkJoin.pulse.size := ⟨0, Nat.zero_lt_two⟩
    let seen : Fin ForkJoin.pulse.size := ⟨1, Nat.one_lt_two⟩
    let start : StateSets 2 ForkJoin.pulse.size :=
      .ofFn fun q => if q = waiting then .literal (0 : Fin 2) false else .const false
    let limit : Constraint 2 := some [.literal (0 : Fin 2) true, .const true]
    ∃ found, ((sequential ForkJoin.pulse false).reachable .forward start limit).result = .ok found ∧
      Product.Contains found ((fun _ => false, seen) : ForkJoin.pulse.Node) ∧
      Product.Contains start ((fun _ => false, waiting) : ForkJoin.pulse.Node) ∧
      ¬ Product.Contains found ((fun _ => false, waiting) : ForkJoin.pulse.Node) := by
  intro waiting seen start limit
  have hcurrent : IsCurrent ForkJoin.pulse.relation.numVars 0 := ⟨by decide, rfl⟩
  have hstart : ∀ q, (start q).OverCurrent ForkJoin.pulse.relation.numVars := by
    intro q
    rw [Family.get_ofFn]
    split_ifs
    · exact .literal hcurrent false
    · exact .const false
  have hcov : ∀ q : Fin ForkJoin.pulse.size, limit.covers q = true := by decide
  have hlimit : ∀ q : Fin ForkJoin.pulse.size,
      (limit.setAt q).OverCurrent ForkJoin.pulse.relation.numVars :=
    Fin.forall_fin_two.mpr ⟨.literal hcurrent true, .const true⟩
  obtain ⟨found, hresult, -, -, -, -, hfound⟩ := reachable_forward_layers Relation.make_toggle
    pulse_overStates.1 pulse_overStates.2 (s := sequential ForkJoin.pulse false) rfl hstart hcov hlimit
  have hbegin : Product.Contains start ((fun _ => false, waiting) : ForkJoin.pulse.Node) := by
    rw [Product.Contains, Family.get_ofFn, if_pos rfl]
    exact (holdsAt_literal_iff false false).mpr rfl
  refine ⟨found, hresult, (hfound _).mpr ⟨_, 2, hbegin, by decide, ?_⟩, hbegin, fun hagain => ?_⟩
  · refine path_succ.mpr ⟨(fun _ => true, waiting), path_succ.mpr ⟨_, path_zero.mpr rfl, ?_⟩, ?_⟩
    · exact ⟨pulseStep_seen.1, (holdsAt_literal_iff true true).mpr rfl⟩
    · exact ⟨pulseStep_seen.2, Diagram.eval_const ..⟩
  · -- The last step of a path would enter a state outside the limit.
    obtain ⟨x, m, -, hpos, hpath⟩ := (hfound _).mp hagain
    obtain ⟨m, rfl⟩ : ∃ j, m = j + 1 := ⟨m - 1, by omega⟩
    obtain ⟨z, -, -, houtside⟩ := path_succ.mp hpath
    cases (holdsAt_literal_iff true false).mp houtside

/-- A search against the edges ends. Its sets after `k + 1` iterations hold the states from which a path
of `1` to `k + 1` steps that leaves states of the limit only leads to a start, and the sets found those
from which such a path of any length does. Its iterations may take the edges one by one. -/
theorem reachable_backward_layers {numVars : Int} {init : Diagram n} {constraints : List (Diagram n)}
    {method : Method} (hmake : Relation.make numVars init constraints method = .ok p.relation)
    (hconstraints : ∀ c ∈ constraints, c.DependsOnly fun v => v < 2 * p.relation.numVars)
    (hlabels : ∀ e ∈ p.automaton.edges, e.label.OverCurrent p.relation.numVars)
    {s : Strategy p} (hs : s.engine = .sequential) {start : StateSets n p.size}
    (hstart : ∀ q, (start q).OverCurrent p.relation.numVars) {limit : Constraint n}
    (hcov : ∀ q : Fin p.size, limit.covers q = true)
    (hlimit : ∀ q : Fin p.size, (limit.setAt q).OverCurrent p.relation.numVars) :
    let passage := s.reachable .backward start limit
    let leaves : p.Node → p.Node → Prop := fun a b =>
      p.automaton.Step (Allowed constraints) a b ∧ (limit.setAt a.2).HoldsAt a.1
    (∃ found, passage.result = .ok found ∧
      passage.strategy.work.iterations = s.work.iterations + passage.history.length ∧
      (StateSets.none :: passage.history).getLast? = some found ∧
      (∀ k sets, passage.history[k]? = some sets →
        (∀ q, (sets q).OverCurrent p.relation.numVars) ∧
          ∀ x, Product.Contains sets x ↔ ∃ y m, Product.Contains start y ∧ 1 ≤ m ∧ m ≤ k + 1 ∧
            Path leaves m x y) ∧
      (∀ q, (found q).OverCurrent p.relation.numVars) ∧
      ∀ x, Product.Contains found x ↔ ∃ y m, Product.Contains start y ∧ 1 ≤ m ∧
        Path leaves m x y) ∧
    ∀ i (reach frontier : StateSets n p.size) round,
      p.backwardStep limit i reach frontier = .ok round →
        ∃ images : StateSets n p.size, (∀ q, p.relation.preImage (frontier q) = .ok (images q)) ∧
          p.sweep limit images reach = (reach.or round.fresh, round.fresh) := by
  intro passage leaves
  have hp := Product.overStates_of_make hmake hconstraints hlabels
  have hkeeps : p.Keeps .backward limit = fun a b => leaves b a := by
    funext a b
    rw [Product.Keeps, Product.StepTo, Relation.next_eq_allowed hmake]
  have hlayers := reachable_layers hp hs .backward hstart hcov hlimit
  simp only [hkeeps, path_swap] at hlayers
  exact ⟨hlayers, fun i reach frontier round hround => Product.backwardStep_eq_sweep hcov hround⟩

/-- Waiting with the value false leads to having seen the value true, in two steps, and no state in which
it was seen leads to another one. -/
theorem reachable_backward_pulse :
    let waiting : Fin ForkJoin.pulse.size := ⟨0, Nat.zero_lt_two⟩
    let seen : Fin ForkJoin.pulse.size := ⟨1, Nat.one_lt_two⟩
    let start : StateSets 2 ForkJoin.pulse.size := .ofFn fun q => .const (q = seen)
    ∃ found, ((sequential ForkJoin.pulse false).reachable .backward start none).result = .ok found ∧
      Product.Contains found ((fun _ => false, waiting) : ForkJoin.pulse.Node) ∧
      ∀ b, ¬ Product.Contains found ((fun _ => b, seen) : ForkJoin.pulse.Node) := by
  intro waiting seen start
  have hstart : ∀ q, (start q).OverCurrent ForkJoin.pulse.relation.numVars := by
    intro q
    rw [Family.get_ofFn]
    exact .const _
  have hcov : ∀ q : Fin ForkJoin.pulse.size, Constraint.covers (n := 2) none q = true :=
    fun _ => rfl
  obtain ⟨⟨found, hresult, -, -, -, -, hfound⟩, -⟩ := reachable_backward_layers Relation.make_toggle
    pulse_overStates.1 pulse_overStates.2 (s := sequential ForkJoin.pulse false) rfl hstart hcov
    fun _ => .const true
  refine ⟨found, hresult, (hfound _).mpr ⟨(fun _ => false, seen), 2, ?_, by decide, ?_⟩, fun b hb => ?_⟩
  · rw [Product.Contains, Family.get_ofFn, Diagram.HoldsAt, Diagram.eval_const]
    rfl
  · refine path_succ.mpr ⟨(fun _ => true, waiting), path_succ.mpr ⟨_, path_zero.mpr rfl, ?_⟩, ?_⟩
    · exact ⟨pulseStep_seen.1, Diagram.eval_const ..⟩
    · exact ⟨pulseStep_seen.2, Diagram.eval_const ..⟩
  · -- The first step of a path would take an edge from the second automaton state.
    obtain ⟨y, m, -, hpos, f, hfirst, -, hstep⟩ := (hfound _).mp hb
    obtain ⟨⟨-, e, he, hsource, -⟩, -⟩ := hstep 0 hpos
    rw [hfirst] at hsource
    rcases List.mem_cons.mp he with rfl | he
    · cases hsource
    · obtain rfl := List.mem_singleton.mp he
      cases hsource

end Strategy
end SymbolicLtl
