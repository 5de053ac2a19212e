import Mathlib.Logic.Relation
import SymbolicLtl.Proofs.Relation.Image
import SymbolicLtl.Reachability.Search

/-!
Breadth-first search finds exactly the points of the product that are reached in one or more steps,
each of which keeps to the constraint. After `i` iterations these are the points reached in at most
`i` steps.
-/
namespace SymbolicLtl

section Layers

variable {α : Type} {R : α → α → Prop} {start : α → Prop}

/-- Reached from a start in between one and `i` steps. -/
def Within (R : α → α → Prop) (start : α → Prop) : Nat → α → Prop
  | 0, _ => False
  | i + 1, y => ∃ x, (start x ∨ Within R start i x) ∧ R x y

theorem within_one {y : α} : Within R start 1 y ↔ ∃ x, start x ∧ R x y := by
  simp [Within]

theorem Within.succ {i : Nat} {y : α} (h : Within R start i y) : Within R start (i + 1) y := by
  induction i generalizing y with
  | zero => cases h
  | succ i ih =>
    obtain ⟨x, hx, hxy⟩ := h
    exact ⟨x, hx.imp_right ih, hxy⟩

theorem exists_within_iff {y : α} :
    (∃ i, Within R start i y) ↔ ∃ x, start x ∧ Relation.TransGen R x y := by
  constructor
  · rintro ⟨i, h⟩
    induction i generalizing y with
    | zero => cases h
    | succ i ih =>
      obtain ⟨x, hx | hx, hxy⟩ := h
      · exact ⟨x, hx, .single hxy⟩
      · obtain ⟨x₀, h₀, hpath⟩ := ih hx
        exact ⟨x₀, h₀, hpath.tail hxy⟩
  · rintro ⟨x, hx, hpath⟩
    induction hpath with
    | single hxy => exact ⟨1, within_one.mpr ⟨x, hx, hxy⟩⟩
    | tail _ hyz ih =>
      obtain ⟨i, hi⟩ := ih
      exact ⟨i + 1, _, .inr hi, hyz⟩

/-- A layer that adds nothing is the last one. -/
theorem Within.of_stable {i j : Nat} (h : ∀ y, Within R start (i + 1) y → Within R start i y)
    {y : α} (hy : Within R start j y) : Within R start i y := by
  induction j generalizing y with
  | zero => cases hy
  | succ j ih =>
    obtain ⟨x, hx, hxy⟩ := hy
    exact h y ⟨x, hx.imp_right ih, hxy⟩

end Layers

namespace StateSets

variable {n k : Nat}

def Has (v : StateSets n k) (x : Fin k × (Nat → Bool)) : Prop := (v x.1).eval x.2 = true

@[simp] theorem has_or (a b : StateSets n k) (x : Fin k × (Nat → Bool)) :
    (a.or b).Has x ↔ a.Has x ∨ b.Has x := by
  simp [Has]

@[simp] theorem not_has_none (x : Fin k × (Nat → Bool)) : ¬ (none : StateSets n k).Has x := by
  simp [Has]

theorem not_has_of_isEmpty {v : StateSets n k} (h : v.isEmpty = true) (x : Fin k × (Nat → Bool)) :
    ¬ v.Has x := by
  rw [Has, (isEmpty_iff v).mp h x.1]
  simp

theorem isEmpty_of_not_has {v : StateSets n k} (h : ∀ x, ¬ v.Has x) : v.isEmpty = true := by
  rw [isEmpty_iff]
  intro q
  apply Diagram.ext
  intro ρ
  rw [Diagram.eval_const, Bool.eq_false_iff]
  exact h (q, ρ)

theorem ext_has {a b : StateSets n k} (h : ∀ x, a.Has x ↔ b.Has x) : a = b :=
  Family.ext fun q => Diagram.ext fun ρ => Bool.eq_iff_iff.mpr (h (q, ρ))

end StateSets

namespace Search

variable {n k : Nat}

/-- Where a search stands after `i` iterations: what is reached, and which points lead on. -/
structure Layer (R : Fin k × (Nat → Bool) → Fin k × (Nat → Bool) → Prop)
    (start : Fin k × (Nat → Bool) → Prop) (i : Nat) (reach frontier : StateSets n k) : Prop where
  reached : ∀ y, reach.Has y ↔ Within R start i y
  next : ∀ y, Within R start (i + 1) y ↔ reach.Has y ∨ ∃ x, frontier.Has x ∧ R x y

namespace Layer

variable {R : Fin k × (Nat → Bool) → Fin k × (Nat → Bool) → Prop}
  {start : Fin k × (Nat → Bool) → Prop} {i : Nat} {reach frontier fresh : StateSets n k}

theorem first (v : StateSets n k) : Layer R v.Has 0 .none v where
  reached y := by simp [Within]
  next y := by simp [within_one]

/-- Joining what is new in the next layer leads to that layer. -/
theorem step (h : Layer R start i reach frontier)
    (hfresh : ∀ y, fresh.Has y ↔ (∃ x, frontier.Has x ∧ R x y) ∧ ¬ reach.Has y) :
    Layer R start (i + 1) (reach.or fresh) fresh := by
  have hreached : ∀ y, (reach.or fresh).Has y ↔ Within R start (i + 1) y := by
    intro y
    rw [StateSets.has_or, hfresh, h.next]
    tauto
  refine ⟨hreached, fun y => ?_⟩
  rw [hreached]
  constructor
  · rintro ⟨x, hx | hx, hxy⟩
    · exact .inl ⟨x, .inl hx, hxy⟩
    · rcases (StateSets.has_or _ _ _).mp ((hreached x).mpr hx) with hold | hnew
      · exact .inl ⟨x, .inr ((h.reached x).mp hold), hxy⟩
      · exact .inr ⟨x, hnew, hxy⟩
  · rintro (hy | ⟨x, hx, hxy⟩)
    · exact hy.succ
    · exact ⟨x, .inr ((hreached x).mp ((StateSets.has_or _ _ _).mpr (.inr hx))), hxy⟩

/-- Without points that lead on all is reached. -/
theorem last (h : Layer R start i reach frontier) (hempty : frontier.isEmpty = true)
    (y : Fin k × (Nat → Bool)) :
    reach.Has y ↔ ∃ x, start x ∧ Relation.TransGen R x y := by
  have hstable : ∀ y, Within R start (i + 1) y → Within R start i y := by
    intro y hy
    rcases (h.next y).mp hy with hy | ⟨x, hx, -⟩
    · exact (h.reached y).mp hy
    · exact absurd hx (StateSets.not_has_of_isEmpty hempty x)
  rw [h.reached, ← exists_within_iff]
  exact ⟨fun hy => ⟨i, hy⟩, fun ⟨_, hy⟩ => hy.of_stable hstable⟩

end Layer

/-- On sets with an invariant, each iteration succeeds and adds the points that are one step away
from the frontier. -/
structure Exact (step : Stepper n k) (R : Fin k × (Nat → Bool) → Fin k × (Nat → Bool) → Prop)
    (Inv : StateSets n k → Prop) : Prop where
  none : Inv .none
  or : ∀ {a b}, Inv a → Inv b → Inv (a.or b)
  round : ∀ i {reach frontier}, Inv reach → Inv frontier →
    ∃ round, step i reach frontier = .ok round ∧ Inv round.fresh ∧
      ∀ y, round.fresh.Has y ↔ (∃ x, frontier.Has x ∧ R x y) ∧ ¬ reach.Has y

theorem saturate_exact {step : Stepper n k}
    {R : Fin k × (Nat → Bool) → Fin k × (Nat → Bool) → Prop} {Inv : StateSets n k → Prop}
    (hstep : Exact step R Inv) {start : Fin k × (Nat → Bool) → Prop} {i m : Nat}
    {reach frontier : StateSets n k} (hreach : Inv reach) (hfrontier : Inv frontier)
    (hlayer : Layer R start i reach frontier) :
    ∃ v, (saturate step m reach frontier).result = .ok v ∧
      ∀ y, v.Has y ↔ ∃ x, start x ∧ Relation.TransGen R x y := by
  fun_induction saturate step m reach frontier generalizing i with
  | case1 m reach frontier hempty => exact ⟨reach, rfl, hlayer.last hempty⟩
  | case2 m reach frontier hempty e he =>
    obtain ⟨round, hround, -⟩ := hstep.round m hreach hfrontier
    rw [hround] at he
    cases he
  | case3 m reach frontier hempty round hround ih =>
    obtain ⟨round', hround', hfresh, hhas⟩ := hstep.round m hreach hfrontier
    obtain rfl : round = round' := Except.ok.inj (hround.symm.trans hround')
    exact ih (hstep.or hreach hfresh) hfresh (hlayer.step hhas)

/-- A search by exact iterations finds what is reached in one or more steps. -/
theorem run_exact {step : Stepper n k}
    {R : Fin k × (Nat → Bool) → Fin k × (Nat → Bool) → Prop} {Inv : StateSets n k → Prop}
    (hstep : Exact step R Inv) {start : StateSets n k} (hstart : Inv start) :
    ∃ v, (run step start).result = .ok v ∧
      ∀ y, v.Has y ↔ ∃ x, start.Has x ∧ Relation.TransGen R x y :=
  saturate_exact hstep hstep.none hstart (Layer.first start)

end Search

theorem Diagram.eval_foldl_or {n : Nat} {α : Type} (f : α → Diagram n) (l : List α)
    (acc : Diagram n) (ρ : Nat → Bool) :
    (l.foldl (fun acc x => acc.or (f x)) acc).eval ρ = true ↔
      acc.eval ρ = true ∨ ∃ x ∈ l, (f x).eval ρ = true := by
  induction l generalizing acc with
  | nil => simp
  | cons x l ih =>
    rw [List.foldl_cons, ih, eval_or, Bool.or_eq_true]
    simp only [List.mem_cons, exists_eq_or_imp, or_assoc]

namespace Product

variable {n : Nat}

abbrev Point (p : Product n) := Fin p.size × (Nat → Bool)

/-- A step along an edge, or against it. The label holds where the edge is taken. -/
def Move (p : Product n) (dir : Direction) (x y : p.Point) : Prop :=
  match dir with
  | .forward => ∃ e ∈ p.automaton.edges, e.source = x.1 ∧ e.target = y.1 ∧
      e.label.eval x.2 = true ∧ p.relation.Passes .forward x.2 y.2
  | .backward => ∃ e ∈ p.automaton.edges, e.target = x.1 ∧ e.source = y.1 ∧
      e.label.eval y.2 = true ∧ p.relation.Passes .backward x.2 y.2

def Advance (p : Product n) (dir : Direction) (constraint : Constraint n) (x y : p.Point) : Prop :=
  p.Move dir x y ∧ (constraint.setAt y.1).eval y.2 = true

/-- What a search needs: against the edges no set may mention next values. -/
structure Admits (p : Product n) (dir : Direction) (start : StateSets n p.size)
    (constraint : Constraint n) : Prop where
  labels : dir = .backward → ∀ e ∈ p.automaton.edges, e.label.AvoidsNext p.relation.numVars
  start : dir = .backward → ∀ q, (start q).AvoidsNext p.relation.numVars
  constraint : dir = .backward → ∀ q : Fin p.size,
    (constraint.setAt q).AvoidsNext p.relation.numVars

theorem occupiedUpTo_eq_none {k : Nat} (v : StateSets n k) {isFaulty : Fin k → Bool}
    (h : ∀ q, isFaulty q = false) : occupiedUpTo v isFaulty = none := by
  simp [occupiedUpTo, h]

theorem eval_sources (p : Product n) (frontier : StateSets n p.size) (q : Fin p.size)
    (ρ : Nat → Bool) : (p.sources frontier q).eval ρ = true ↔
      ∃ e ∈ p.automaton.edges, e.target = q ∧ (frontier e.source).eval ρ = true ∧
        e.label.eval ρ = true := by
  rw [sources, Family.get_ofFn, Diagram.eval_foldl_or]
  simp only [Automaton.incoming, List.mem_filter, beq_iff_eq, Fin.val_inj, Diagram.eval_const,
    Bool.false_eq_true, false_or, Diagram.eval_and, Bool.and_eq_true, StateSets.setAt_val, and_assoc]

theorem eval_entries (p : Product n) (images : StateSets n p.size) (q : Fin p.size)
    (ρ : Nat → Bool) : (p.entries images q).eval ρ = true ↔
      ∃ e ∈ p.automaton.edges, e.source = q ∧ (images e.target).eval ρ = true ∧
        e.label.eval ρ = true := by
  rw [entries, Family.get_ofFn, Diagram.eval_foldl_or]
  simp only [Automaton.outgoing, List.mem_filter, beq_iff_eq, Fin.val_inj, Diagram.eval_const,
    Bool.false_eq_true, false_or, Diagram.eval_and, Bool.and_eq_true, StateSets.setAt_val, and_assoc]

theorem has_newStates {k : Nat} (constraint : Constraint n) (reach found : StateSets n k)
    (y : Fin k × (Nat → Bool)) : (newStates constraint reach found).Has y ↔
      (found.Has y ∧ (constraint.setAt y.1).eval y.2 = true) ∧ ¬ reach.Has y := by
  simp [newStates, StateSets.Has]

theorem leadsToSets_eq_true (p : Product n) (q : Fin p.size) :
    p.leadsToSets p.size q = true := by
  simp [leadsToSets]

/-- An iteration along the edges adds what is one step away from the frontier. -/
theorem has_forwardRound {p : Product n} (hne : p.relation.parts ≠ []) (constraint : Constraint n)
    (reach frontier : StateSets n p.size) (y : p.Point) :
    (p.forwardRound constraint reach frontier).fresh.Has y ↔
      (∃ x, frontier.Has x ∧ p.Advance .forward constraint x y) ∧ ¬ reach.Has y := by
  rw [forwardRound, roundOf, has_newStates, StateSets.Has, Family.get_map,
    Relation.eval_postImage hne]
  simp only [eval_sources, Advance, Move]
  refine and_congr_left fun _ => ?_
  constructor
  · rintro ⟨⟨ρ, ⟨e, he, ht, hf, hl⟩, hp⟩, hc⟩
    exact ⟨(e.source, ρ), hf, ⟨e, he, rfl, ht, hl, hp⟩, hc⟩
  · rintro ⟨x, hx, ⟨e, he, hs, ht, hl, hp⟩, hc⟩
    refine ⟨⟨x.2, ⟨e, he, ht, ?_, hl⟩, hp⟩, hc⟩
    rw [hs]
    exact hx

theorem forwardStep_exact {p : Product n} (hne : p.relation.parts ≠ []) {constraint : Constraint n}
    (hcov : ∀ q : Fin p.size, constraint.covers q = true) :
    Search.Exact (p.forwardStep constraint) (p.Advance .forward constraint)
      fun _ : StateSets n p.size => True where
  none := trivial
  or _ _ := trivial
  round i reach frontier _ _ := by
    refine ⟨p.forwardRound constraint reach frontier, ?_, trivial,
      has_forwardRound hne constraint reach frontier⟩
    have hleads : occupiedUpTo frontier (fun q => !p.leadsToSets p.size q) = none :=
      occupiedUpTo_eq_none _ fun q => by simp [leadsToSets_eq_true]
    have hcovers : occupiedUpTo (p.sources frontier) (fun q => !constraint.covers q) = none :=
      occupiedUpTo_eq_none _ fun q => by simp [hcov q]
    simp [forwardStep, hleads, hcovers, forwardRound]

theorem comesFromSets_eq_true {p : Product n} {constraint : Constraint n}
    (hcov : ∀ q : Fin p.size, constraint.covers q = true) (q : Fin p.size) :
    p.comesFromSets p.size constraint q = true := by
  simp [comesFromSets, hcov]

theorem backwardStep_exact {p : Product n} (hne : p.relation.parts ≠ [])
    {constraint : Constraint n} (hcov : ∀ q : Fin p.size, constraint.covers q = true)
    (hlabels : ∀ e ∈ p.automaton.edges, e.label.AvoidsNext p.relation.numVars)
    (hconstraint : ∀ q : Fin p.size, (constraint.setAt q).AvoidsNext p.relation.numVars) :
    Search.Exact (p.backwardStep constraint) (p.Advance .backward constraint)
      fun v : StateSets n p.size => ∀ q, (v q).AvoidsNext p.relation.numVars where
  none q := by
    rw [StateSets.get_none]
    exact .const false
  or ha hb q := by
    rw [StateSets.get_or]
    exact (ha q).or (hb q)
  round i reach frontier hreach hfrontier := by
    choose image himage using fun q => p.relation.exists_preImage (hfrontier q)
    have hcollect : Family.collect p.size (p.enteringImage constraint frontier) =
        .ok (.ofFn image) := by
      refine Family.collect_eq_ok_iff.mpr fun q => ?_
      simp [enteringImage, himage q, comesFromSets_eq_true hcov, bind, Except.bind, pure,
        Except.pure]
    refine ⟨⟨newStates constraint reach (p.entries (.ofFn image)), occupied frontier,
      newStates_isFresh constraint reach _⟩, by simp only [backwardStep, hcollect], ?_, ?_⟩
    · intro q
      have hentries : (p.entries (.ofFn image) q).AvoidsNext p.relation.numVars := by
        intro ρ σ h
        rw [Bool.eq_iff_iff, eval_entries, eval_entries]
        refine exists_congr fun e => and_congr_right fun he => and_congr_right fun _ => ?_
        rw [Family.get_ofFn, Relation.avoidsNext_preImage hne (himage e.target) ρ σ h,
          hlabels e he ρ σ h]
      simp only [newStates, Family.get_ofFn]
      exact (hentries.and (hconstraint q)).diff (hreach q)
    · intro y
      rw [has_newStates, StateSets.Has, eval_entries]
      simp only [Family.get_ofFn, Relation.eval_preImage hne (himage _), Advance, Move]
      refine and_congr_left fun _ => ?_
      constructor
      · rintro ⟨⟨e, he, hs, ⟨ρ, hf, hp⟩, hl⟩, hc⟩
        exact ⟨(e.target, ρ), hf, ⟨e, he, rfl, hs, hl, hp⟩, hc⟩
      · rintro ⟨x, hx, ⟨e, he, ht, hs, hl, hp⟩, hc⟩
        refine ⟨⟨e, he, hs, ⟨x.2, ?_, hp⟩, hl⟩, hc⟩
        rw [ht]
        exact hx

/-- A search in either direction goes through exact iterations. -/
theorem exists_exact {p : Product n} (hne : p.relation.parts ≠ []) {dir : Direction}
    {start : StateSets n p.size} {constraint : Constraint n}
    (hcov : ∀ q : Fin p.size, constraint.covers q = true) (h : p.Admits dir start constraint) :
    ∃ step Inv, p.search dir start constraint = Search.run step start ∧
      Search.Exact step (p.Advance dir constraint) Inv ∧ Inv start := by
  cases dir with
  | forward => exact ⟨_, _, rfl, forwardStep_exact hne hcov, trivial⟩
  | backward =>
    exact ⟨_, _, rfl, backwardStep_exact hne hcov (h.labels rfl) (h.constraint rfl), h.start rfl⟩

/-- A search in either direction finds what is reached in one or more steps. -/
theorem search_exact {p : Product n} (hne : p.relation.parts ≠ []) {dir : Direction}
    {start : StateSets n p.size} {constraint : Constraint n}
    (hcov : ∀ q : Fin p.size, constraint.covers q = true) (h : p.Admits dir start constraint) :
    ∃ v, (p.search dir start constraint).result = .ok v ∧
      ∀ y, v.Has y ↔ ∃ x, start.Has x ∧ Relation.TransGen (p.Advance dir constraint) x y := by
  obtain ⟨step, Inv, hsearch, hexact, hstart⟩ := exists_exact hne hcov h
  rw [hsearch]
  exact Search.run_exact hexact hstart

end Product
end SymbolicLtl
