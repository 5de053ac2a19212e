import SymbolicLtl.Proofs.Reachability.Search
import SymbolicLtl.Proofs.Relation.Copies
import SymbolicLtl.Reachability.Strategy

/-!
Searches with distributed images. A relation that goes through tables comes back as it was, so every
executor computes the images that the product itself has, and the search takes the same course.
-/
namespace SymbolicLtl

variable {n k : Nat}

namespace Search

/-- The same sets, after the same iterations. Images are counted alike unless a search fails. -/
structure Agrees (s t : Search n k) : Prop where
  result : s.result = t.result
  history : s.history = t.history
  iterations : s.iterations = t.iterations
  images : ∀ v, t.result = .ok v → s.images = t.images

/-- Iterations that fail alike, and otherwise add the same, make searches agree. -/
theorem saturate_agrees {step step' : Stepper n k}
    (h : ∀ i reach frontier, (step i reach frontier).mapError FailedRound.misuse =
      (step' i reach frontier).mapError FailedRound.misuse)
    (i : Nat) (reach frontier : StateSets n k) :
    (saturate step i reach frontier).Agrees (saturate step' i reach frontier) := by
  fun_induction saturate step' i reach frontier with
  | case1 i reach frontier hempty =>
    rw [saturate, dif_pos hempty]
    exact ⟨rfl, rfl, rfl, fun _ _ => rfl⟩
  | case2 i reach frontier hempty e he =>
    have hstep := h i reach frontier
    rw [saturate, dif_neg hempty]
    cases hs : step i reach frontier with
    | ok round => simp [hs, he, Except.mapError] at hstep
    | error e' =>
      have hmisuse : e'.misuse = e.misuse := by simpa [hs, he, Except.mapError] using hstep
      refine ⟨congrArg Except.error hmisuse, rfl, rfl, fun v hv => ?_⟩
      cases hv
  | case3 i reach frontier hempty round hround ih =>
    have hstep := h i reach frontier
    rw [saturate, dif_neg hempty]
    cases hs : step i reach frontier with
    | error e => simp [hs, hround, Except.mapError] at hstep
    | ok round' =>
      obtain rfl : round' = round := by simpa [hs, hround, Except.mapError] using hstep
      refine ⟨ih.result, ?_, ?_, fun v hv => ?_⟩
      · simp only [preceded, ih.history]
      · simp only [preceded, ih.iterations]
      · simp only [preceded, ih.images v hv]

end Search

theorem Strategy.exists_reachable_eq {p : Product n} (s : Strategy p) (h : s.engine = .sequential)
    (dir : Direction) (start : StateSets n k) (constraint : Constraint n) : ∃ event,
      s.reachable dir start constraint = s.passed (p.search dir start constraint) event := by
  unfold reachable
  rw [h]
  exact ⟨_, rfl⟩

namespace ForkJoin

variable {p : Product n}

def Faithful (pool : ForkJoin p) : Prop := ∀ r ∈ pool.executors, r = p.relation

theorem exists_make {numVars : Int} {init : Diagram n} {constraints : List (Diagram n)}
    {method : Method} (h : Relation.make numVars init constraints method = .ok p.relation)
    (executors : Int) : ∃ pool, make p executors = .ok pool ∧ pool.Faithful ∧
      pool.executors.length = executors.toNat - 1 + 1 := by
  refine ⟨⟨List.replicate (executors.toNat - 1 + 1) p.relation, by simp⟩, ?_, ?_, ?_⟩
  · unfold make
    rw [Relation.clone_self h]
    rfl
  · intro r hr
    exact List.eq_of_mem_replicate hr
  · exact List.length_replicate

theorem remoteImage_eq (r : Relation n) (dir : Direction) (s : Diagram n) :
    remoteImage r dir s = r.image dir s := by
  unfold remoteImage
  rw [Table.toDiagram_ofDiagram s rfl]
  cases h : r.image dir s with
  | error e => simp [h, bind, Except.bind]
  | ok t => simp [h, bind, Except.bind, Table.toDiagram_ofDiagram t rfl]

theorem image_of_isFalse (r : Relation n) (dir : Direction) {s : Diagram n}
    (h : s.isFalse = true) : r.image dir s = .ok (.const false) := by
  have hfalse : s = .const false := (Diagram.isConst_iff s false).mp h
  subst hfalse
  cases dir <;> rfl

theorem images_eq {pool : ForkJoin p} (hpool : pool.Faithful)
    (assign : Nat → Fin pool.executors.length) (dir : Direction) (sets : StateSets n k) :
    pool.images assign dir sets = Family.collect k fun q => p.relation.image dir (sets q) := by
  unfold images
  congr 1
  funext q
  split_ifs with hempty
  · exact (image_of_isFalse p.relation dir hempty).symm
  · rw [remoteImage_eq, hpool _ (List.get_mem _ _)]

/-- Whoever computes the images, an iteration adds what an iteration of one search adds. -/
theorem step_forward {pool : ForkJoin p} (hpool : pool.Faithful) (assign : pool.Assignment)
    {constraint : Constraint n} (hcov : ∀ q : Fin p.size, constraint.covers q = true) (i : Nat)
    (reach frontier : StateSets n p.size) :
    pool.step assign .forward constraint i reach frontier =
      p.forwardStep constraint i reach frontier := by
  have hleads : Product.occupiedUpTo frontier (fun q => !p.leadsToSets p.size q) = none :=
    Product.occupiedUpTo_eq_none _ fun q => by simp [Product.leadsToSets_eq_true]
  have hcovers : Product.occupiedUpTo (p.sources frontier) (fun q => !constraint.covers q) = none :=
    Product.occupiedUpTo_eq_none _ fun q => by simp [hcov q]
  have hall : (List.range p.size).all constraint.covers = true := by
    simpa [Fin.forall_iff] using hcov
  have himages : pool.images (assign i) .forward (p.sources frontier) =
      .ok ((p.sources frontier).map p.relation.postImage) := by
    rw [images_eq hpool]
    refine Family.collect_eq_ok_iff.mpr fun q => ?_
    rw [Family.get_map]
    rfl
  simp [step, Product.forwardStep, hleads, hcovers, himages, found, hall, Product.roundOf]

theorem enteringImage_eq {constraint : Constraint n}
    (hcov : ∀ q : Fin p.size, constraint.covers q = true) (frontier : StateSets n p.size) :
    p.enteringImage constraint frontier = fun q => p.relation.image .backward (frontier q) := by
  funext q
  unfold Product.enteringImage
  rw [Relation.image, Product.comesFromSets_eq_true hcov]
  cases p.relation.preImage (frontier q) <;> simp [bind, Except.bind, pure, Except.pure]

/-- Against the edges only the count of images differs, and only where an image fails. -/
theorem step_backward {pool : ForkJoin p} (hpool : pool.Faithful) (assign : pool.Assignment)
    {constraint : Constraint n} (hcov : ∀ q : Fin p.size, constraint.covers q = true) (i : Nat)
    (reach frontier : StateSets n p.size) :
    (pool.step assign .backward constraint i reach frontier).mapError FailedRound.misuse =
      (p.backwardStep constraint i reach frontier).mapError FailedRound.misuse := by
  have hcomes : ∀ images : StateSets n p.size,
      Product.occupiedUpTo images (fun q => !p.comesFromSets p.size constraint q) = none :=
    fun images => Product.occupiedUpTo_eq_none _ fun q => by
      simp [Product.comesFromSets_eq_true hcov]
  simp only [step, Product.backwardStep, images_eq hpool, enteringImage_eq hcov]
  cases Family.collect p.size fun q => p.relation.image .backward (frontier q) with
  | error e => rfl
  | ok images => simp [found, hcomes]

theorem search_agrees {pool : ForkJoin p} (hpool : pool.Faithful) (assign : pool.Assignment)
    (dir : Direction) (start : StateSets n p.size) {constraint : Constraint n}
    (hcov : ∀ q : Fin p.size, constraint.covers q = true) :
    (pool.search assign dir start constraint).Agrees (p.search dir start constraint) := by
  cases dir with
  | forward =>
    refine Search.saturate_agrees (fun i reach frontier => ?_) 1 .none start
    rw [step_forward hpool assign hcov]
  | backward => exact Search.saturate_agrees (step_backward hpool assign hcov) 1 .none start

/-- Any positive number of executors can be made of a relation. Whichever of them takes which image
in which iteration, they find the sets that one search finds and account for the same work; and sets
of states are always found. -/
theorem reachable_eq_sequential {numVars : Int} {init : Diagram n}
    {constraints : List (Diagram n)} {method : Method}
    (hmake : Relation.make numVars init constraints method = .ok p.relation) {executors : Int}
    (hpos : 0 < executors) (dir : Direction) (start : StateSets n p.size)
    {constraint : Constraint n} (hcov : ∀ q : Fin p.size, constraint.covers q = true) :
    ∃ pool, make p executors = .ok pool ∧ pool.executors.length = executors ∧
      ∀ (assign : pool.Assignment) (s t : Strategy p), t.engine = .sequential → s.work = t.work →
        let found := s.passed (pool.search assign dir start constraint) (.forkJoinIteration dir)
        let expected := t.reachable dir start constraint
        found.result = expected.result ∧ found.history = expected.history ∧
          (p.Admits dir start constraint → ∃ v, expected.result = .ok v) ∧
          ∀ v, expected.result = .ok v → found.strategy.work = expected.strategy.work := by
  obtain ⟨pool, hpool, hfaithful, hlength⟩ := exists_make hmake executors
  refine ⟨pool, hpool, by omega, fun assign s t hengine hwork => ?_⟩
  have hagrees := search_agrees hfaithful assign dir start hcov
  obtain ⟨event, hexpected⟩ := t.exists_reachable_eq hengine dir start constraint
  rw [hexpected]
  refine ⟨hagrees.result, hagrees.history, fun hadmits => ?_, fun v hv => ?_⟩
  · obtain ⟨v, hv, -⟩ := Product.search_exact (Relation.parts_ne_nil hmake) hcov hadmits
    exact ⟨v, hv⟩
  · simp only [Strategy.passed, hwork, hagrees.iterations, hagrees.images v hv]

/-- One variable that changes in every step, beside an automaton that waits for the value true. -/
def pulse : Product 2 where
  relation := .toggle
  automaton :=
    let waiting : Fin 2 := ⟨0, Nat.zero_lt_two⟩
    let seen : Fin 2 := ⟨1, Nat.one_lt_two⟩
    ⟨2, [⟨waiting, waiting, .const true⟩, ⟨waiting, seen, .literal waiting true⟩], [waiting], [seen]⟩

/-- Three executors find what leads to the automaton states, whichever of them takes which image. -/
theorem reachable_pulse : ∃ pool, make pulse 3 = .ok pool ∧ pool.executors.length = 3 ∧
    ∀ assign : pool.Assignment, ∃ v,
      (pool.search assign .backward (.replicate 2 (.const true)) none).result = .ok v ∧
        ((Strategy.sequential pulse false).reachable .backward (.replicate 2 (.const true))
          none).result = .ok v := by
  have hcurrent : ¬ IsNext pulse.relation.numVars 0 := fun h => absurd h.2 (by decide)
  have hlabels : ∀ e ∈ pulse.automaton.edges, e.label.AvoidsNext pulse.relation.numVars := by
    intro e he
    rcases List.mem_cons.mp he with rfl | he
    · exact .const true
    · obtain rfl := List.mem_singleton.mp he
      exact .literal hcurrent true
  have hstart : ∀ q : Fin 2, ((Family.replicate 2 (.const true) : StateSets 2 2) q).AvoidsNext
      pulse.relation.numVars := by
    intro q
    rw [Family.get_replicate]
    exact .const true
  have hadmits : pulse.Admits .backward (.replicate 2 (.const true)) none :=
    ⟨fun _ => hlabels, fun _ => hstart, fun _ _ => .const true⟩
  obtain ⟨pool, hmake, hlength, hsearch⟩ := @reachable_eq_sequential _ pulse _ _ _ _
    Relation.make_toggle 3 (by decide) .backward (.replicate 2 (.const true)) none fun _ => rfl
  refine ⟨pool, hmake, by omega, fun assign => ?_⟩
  obtain ⟨hresult, -, hfound, -⟩ := hsearch assign ⟨.forkJoin pool, .zero, false⟩
    (.sequential pulse false) rfl rfl
  obtain ⟨v, hv⟩ := hfound hadmits
  exact ⟨v, hresult.trans hv, hv⟩

end ForkJoin
end SymbolicLtl
