import SymbolicLtl.Proofs.Reachability.Search
import SymbolicLtl.Proofs.Relation.States

/-!
States of the product: values of the state variables, at an automaton state. A search among sets of states
follows the steps that the constraints of the relation and the edges of the automaton allow.
-/
namespace SymbolicLtl

/-- A step of a system and an automaton: the label holds in the state that is left. -/
def Automaton.Step {n k : Nat} (a : Automaton n) (T : State k → State k → Prop)
    (x y : State k × Fin a.size) : Prop :=
  T x.1 y.1 ∧ ∃ e ∈ a.edges, e.source = x.2 ∧ e.target = y.2 ∧ e.label.HoldsAt x.1

namespace Product

variable {n : Nat}

abbrev Node (p : Product n) := State p.relation.numVars × Fin p.size

def Point.node {p : Product n} (x : p.Point) : p.Node := (State.current _ x.2, x.1)

/-- A step of the product, or a step against it. -/
def StepTo (p : Product n) (dir : Direction) (x y : p.Node) : Prop :=
  match dir with
  | .forward => p.automaton.Step p.relation.Next x y
  | .backward => p.automaton.Step p.relation.Next y x

/-- The parts of the relation are over current and next values, and labels over current ones. -/
structure OverStates (p : Product n) : Prop where
  parts_ne_nil : p.relation.parts ≠ []
  holds_congr : ∀ σ τ, (∀ v, v < 2 * p.relation.numVars → σ v = τ v) →
    p.relation.Holds σ → p.relation.Holds τ
  labels : ∀ e ∈ p.automaton.edges, e.label.OverCurrent p.relation.numVars

theorem OverStates.relation {p : Product n} (hp : p.OverStates) : p.relation.OverStates :=
  ⟨hp.parts_ne_nil, hp.holds_congr⟩

theorem Move.stepTo {p : Product n} (hp : p.OverStates) {dir : Direction} {x y : p.Point}
    (h : p.Move dir x y) : p.StepTo dir x.node y.node := by
  cases dir with
  | forward =>
    obtain ⟨e, he, hs, ht, hl, hpass⟩ := h
    exact ⟨hpass.nextTo hp.relation, e, he, hs, ht, ((hp.labels e he).eval_eq_true _).mp hl⟩
  | backward =>
    obtain ⟨e, he, ht, hs, hl, hpass⟩ := h
    exact ⟨hpass.nextTo hp.relation, e, he, hs, ht, ((hp.labels e he).eval_eq_true _).mp hl⟩

/-- A step into the state of a point is a move from some point into it. -/
theorem StepTo.exists_move {p : Product n} (hp : p.OverStates) {dir : Direction} {a : p.Node}
    {y : p.Point} (h : p.StepTo dir a y.node) : ∃ x : p.Point, x.node = a ∧ p.Move dir x y := by
  cases dir with
  | forward =>
    obtain ⟨hnext, e, he, hs, ht, hl⟩ := h
    have hnext : p.relation.NextTo .forward a.1 (State.current _ y.2) := hnext
    obtain ⟨ρ, hρ, hpass⟩ := hnext.exists_passes hp.relation
    refine ⟨(a.2, ρ), Prod.ext hρ rfl, e, he, hs, ht, ?_, hpass⟩
    rw [(hp.labels e he).eval_eq_true, hρ]
    exact hl
  | backward =>
    obtain ⟨hnext, e, he, hs, ht, hl⟩ := h
    have hnext : p.relation.NextTo .backward a.1 (State.current _ y.2) := hnext
    obtain ⟨ρ, hρ, hpass⟩ := hnext.exists_passes hp.relation
    exact ⟨(a.2, ρ), Prod.ext hρ rfl, e, he, ht, hs, ((hp.labels e he).eval_eq_true _).mpr hl, hpass⟩

def Contains {p : Product n} (v : StateSets n p.size) (x : p.Node) : Prop := (v x.2).HoldsAt x.1

@[simp] theorem contains_or {p : Product n} (a b : StateSets n p.size) (x : p.Node) :
    Contains (a.or b) x ↔ Contains a x ∨ Contains b x := by
  simp [Contains, Diagram.HoldsAt]

@[simp] theorem contains_and {p : Product n} (a b : StateSets n p.size) (x : p.Node) :
    Contains (a.and b) x ↔ Contains a x ∧ Contains b x := by
  simp [Contains, Diagram.HoldsAt]

def Keeps (p : Product n) (dir : Direction) (constraint : Constraint n) (x y : p.Node) : Prop :=
  p.StepTo dir x y ∧ (constraint.setAt y.2).HoldsAt y.1

theorem has_iff_contains {p : Product n} {v : StateSets n p.size}
    (hv : ∀ q, (v q).OverCurrent p.relation.numVars) (x : p.Point) :
    v.Has x ↔ Contains v x.node :=
  (hv x.1).eval_eq_true x.2

theorem states_of_has {p : Product n} {v : StateSets n p.size} {P : p.Node → Prop}
    (h : ∀ y : p.Point, v.Has y ↔ P y.node) :
    (∀ q, (v q).OverCurrent p.relation.numVars) ∧ ∀ y, Contains v y ↔ P y := by
  have hset : ∀ q, (v q).OverCurrent p.relation.numVars ∧
      ∀ s : State p.relation.numVars, (v q).HoldsAt s ↔ P (s, q) := fun q =>
    Diagram.states_of_eval fun ρ => h (q, ρ)
  exact ⟨fun q => (hset q).1, fun y => (hset y.2).2 y.1⟩

/-- Layers of points lie above the layers of their states. -/
theorem within_node_iff {p : Product n} (hp : p.OverStates) {dir : Direction}
    {constraint : Constraint n}
    (hc : ∀ q : Fin p.size, (constraint.setAt q).OverCurrent p.relation.numVars)
    (A : p.Node → Prop) (k : Nat) (y : p.Point) :
    Within (p.Advance dir constraint) (fun x => A x.node) k y ↔
      Within (p.Keeps dir constraint) A k y.node := by
  induction k generalizing y with
  | zero => rfl
  | succ k ih =>
    constructor
    · rintro ⟨x, hx, hmove, hy⟩
      refine ⟨Point.node x, hx.imp_right (ih x).mp, hmove.stepTo hp, ?_⟩
      exact ((hc y.1).eval_eq_true y.2).mp hy
    · rintro ⟨a, ha, hstep, hy⟩
      obtain ⟨x, rfl, hmove⟩ := hstep.exists_move hp
      exact ⟨x, ha.imp_right (ih x).mpr, hmove, ((hc y.1).eval_eq_true y.2).mpr hy⟩

theorem within_has_iff {p : Product n} (hp : p.OverStates) {dir : Direction}
    {start : StateSets n p.size} {constraint : Constraint n}
    (hs : ∀ q, (start q).OverCurrent p.relation.numVars)
    (hc : ∀ q : Fin p.size, (constraint.setAt q).OverCurrent p.relation.numVars)
    (k : Nat) (y : p.Point) :
    Within (p.Advance dir constraint) start.Has k y ↔
      Within (p.Keeps dir constraint) (Contains start) k y.node := by
  rw [← within_node_iff hp hc]
  simp only [← has_iff_contains hs]

/-- Paths of points lie above the paths of their states. -/
theorem exists_transGen_iff {p : Product n} (hp : p.OverStates) {dir : Direction}
    {constraint : Constraint n}
    (hc : ∀ q : Fin p.size, (constraint.setAt q).OverCurrent p.relation.numVars)
    (A : p.Node → Prop) (y : p.Point) :
    (∃ x : p.Point, A x.node ∧ Relation.TransGen (p.Advance dir constraint) x y) ↔
      ∃ a, A a ∧ Relation.TransGen (p.Keeps dir constraint) a y.node := by
  rw [← exists_within_iff, ← exists_within_iff]
  exact exists_congr fun k => within_node_iff hp hc A k y

theorem OverStates.admits {p : Product n} (hp : p.OverStates) (dir : Direction)
    {start : StateSets n p.size} {constraint : Constraint n}
    (hs : ∀ q, (start q).OverCurrent p.relation.numVars)
    (hc : ∀ q : Fin p.size, (constraint.setAt q).OverCurrent p.relation.numVars) :
    p.Admits dir start constraint :=
  ⟨fun _ e he => (hp.labels e he).avoidsNext, fun _ q => (hs q).avoidsNext,
    fun _ q => (hc q).avoidsNext⟩

/-- A search among sets of states finds a set of states: those reached in one or more steps. -/
theorem search_states {p : Product n} (hp : p.OverStates) {dir : Direction}
    {start : StateSets n p.size} {constraint : Constraint n}
    (hcov : ∀ q : Fin p.size, constraint.covers q = true)
    (hs : ∀ q, (start q).OverCurrent p.relation.numVars)
    (hc : ∀ q : Fin p.size, (constraint.setAt q).OverCurrent p.relation.numVars) :
    ∃ v, (p.search dir start constraint).result = .ok v ∧
      (∀ q, (v q).OverCurrent p.relation.numVars) ∧
      ∀ y, Contains v y ↔
        ∃ x, Contains start x ∧ Relation.TransGen (p.Keeps dir constraint) x y := by
  obtain ⟨v, hv, hhas⟩ := search_exact hp.parts_ne_nil hcov (hp.admits dir hs hc)
  have hnode : ∀ y : p.Point, v.Has y ↔
      ∃ x, Contains start x ∧ Relation.TransGen (p.Keeps dir constraint) x y.node := by
    intro y
    rw [hhas, ← exists_transGen_iff hp hc]
    simp only [has_iff_contains hs]
  exact ⟨v, hv, states_of_has hnode⟩

end Product
end SymbolicLtl
