import Mathlib.Order.Monotone.Basic
import SymbolicLtl.Emptiness.Checker
import SymbolicLtl.Proofs.Reachability.States

/-!
Fair states are the accepting states from which an infinite path meets accepting states again and
again. Shrinking keeps every such path, and sets that no longer shrink can be unrolled into one.
-/
namespace SymbolicLtl

section Runs

variable {α : Type} {R : α → α → Prop} {A Z : α → Prop}

/-- Some infinite path from `x` meets `A` again and again. -/
def Recurs (R : α → α → Prop) (A : α → Prop) (x : α) : Prop :=
  ∃ f : Nat → α, f 0 = x ∧ (∀ i, R (f i) (f (i + 1))) ∧ ∀ m, ∃ i, m ≤ i ∧ A (f i)

theorem Recurs.mono {S : α → α → Prop} (h : ∀ x y, R x y → S x y) {x : α} (hx : Recurs R A x) :
    Recurs S A x := by
  obtain ⟨f, h₀, hstep, hmeet⟩ := hx
  exact ⟨f, h₀, fun i => h _ _ (hstep i), hmeet⟩

theorem Recurs.cons {x y : α} (hxy : R x y) (hy : Recurs R A y) : Recurs R A x := by
  obtain ⟨f, rfl, hstep, hmeet⟩ := hy
  refine ⟨fun i => if i = 0 then x else f (i - 1), rfl, fun i => ?_, fun m => ?_⟩
  · cases i with
    | zero => exact hxy
    | succ i => exact hstep i
  · obtain ⟨i, hi, hA⟩ := hmeet m
    exact ⟨i + 1, by omega, hA⟩

theorem Recurs.of_reflTransGen {x y : α} (hxy : Relation.ReflTransGen R x y)
    (hy : Recurs R A y) : Recurs R A x := by
  induction hxy using Relation.ReflTransGen.head_induction_on with
  | refl => exact hy
  | head hab _ ih => exact ih.cons hab

theorem recurs_of_run {f : Nat → α} (hstep : ∀ i, R (f i) (f (i + 1)))
    (hmeet : ∀ m, ∃ i, m ≤ i ∧ A (f i)) (j : Nat) : Recurs R A (f j) := by
  refine ⟨fun i => f (j + i), rfl, fun i => hstep (j + i), fun m => ?_⟩
  obtain ⟨i, hi, hA⟩ := hmeet (j + m)
  refine ⟨i - j, by omega, ?_⟩
  change A (f (j + (i - j)))
  rwa [show j + (i - j) = i by omega]

def Leads (R : α → α → Prop) (Z : α → Prop) : Nat → α → Prop
  | 0, x => Z x
  | i + 1, x => ∃ y, R x y ∧ Leads R Z i y

theorem exists_leads_of_transGen {x z : α} (h : Relation.TransGen R x z) (hz : Z z) :
    ∃ y, R x y ∧ ∃ i, Leads R Z i y := by
  induction h using Relation.TransGen.head_induction_on with
  | single hxz => exact ⟨z, hxz, 0, hz⟩
  | head hxy _ ih =>
    obtain ⟨y', hyy', i, hi⟩ := ih
    exact ⟨_, hxy, i + 1, y', hyy', hi⟩

/-- If `Z` can always be met again then some infinite path meets it again and again. -/
theorem recurs_of_returning (hZ : ∀ x, Z x → ∃ y, Z y ∧ Relation.TransGen R x y) {x : α}
    (hx : Z x) : Recurs R Z x := by
  -- A position is a point with the length of a path to `Z`; at the end of it a new one is chosen.
  let Position := { s : Nat × α // Leads R Z s.1 s.2 }
  have hnext : ∀ s : Position, ∃ t : Position,
      R s.val.2 t.val.2 ∧ (s.val.1 = 0 ∨ s.val.1 = t.val.1 + 1) := by
    rintro ⟨⟨i, a⟩, h⟩
    cases i with
    | zero =>
      obtain ⟨z, hz, hpath⟩ := hZ a h
      obtain ⟨y, hy, j, hj⟩ := exists_leads_of_transGen hpath hz
      exact ⟨⟨(j, y), hj⟩, hy, .inl rfl⟩
    | succ i =>
      obtain ⟨y, hy, hi⟩ := h
      exact ⟨⟨(i, y), hi⟩, hy, .inr rfl⟩
  choose next hstep hcount using hnext
  let g : Nat → Position := fun i => next^[i] ⟨(0, x), hx⟩
  have hg : ∀ i, g (i + 1) = next (g i) := fun i => Function.iterate_succ_apply' next i _
  have hmeet : ∀ c m, (g m).val.1 = c → ∃ i, m ≤ i ∧ Z (g i).val.2 := by
    intro c
    induction c with
    | zero =>
      intro m hm
      have := (g m).property
      rw [hm] at this
      exact ⟨m, le_rfl, this⟩
    | succ c ih =>
      intro m hm
      have hc : (g (m + 1)).val.1 = c := by
        rw [hg]
        rcases hcount (g m) with h | h <;> omega
      obtain ⟨i, hi, hZi⟩ := ih (m + 1) hc
      exact ⟨i, by omega, hZi⟩
  refine ⟨fun i => (g i).val.2, rfl, fun i => ?_, fun m => hmeet _ m rfl⟩
  dsimp only
  rw [hg]
  exact hstep (g i)

end Runs

theorem Constraint.covers_toList {n k : Nat} (v : StateSets n k) (q : Fin k) :
    Constraint.covers (some v.toList) q = true := by
  simp [covers, Family.toList_eq]

theorem Constraint.setAt_toList {n k : Nat} (v : StateSets n k) (q : Fin k) :
    Constraint.setAt (some v.toList) q = v q := by
  simp [setAt, Family.toList_eq]

namespace Strategy

variable {n : Nat} {p : Product n}

theorem reachable_sequential {s : Strategy p} (hs : s.engine = .sequential) (dir : Direction)
    (start : StateSets n p.size) (constraint : Constraint n) :
    (s.reachable dir start constraint).result = (p.search dir start constraint).result ∧
      (s.reachable dir start constraint).strategy.engine = .sequential := by
  simp [reachable, hs, passed]

/-- Shrinking ends with the largest sets from whose states the sets are met again. -/
theorem shrink_exact (hp : p.OverStates) {constraint : Constraint n}
    (hcov : ∀ q : Fin p.size, constraint.covers q = true)
    (hc : ∀ q : Fin p.size, (constraint.setAt q).OverCurrent p.relation.numVars) {verbose : Bool}
    {s : Strategy p} (hs : s.engine = .sequential) {i : Nat} {fair : StateSets n p.size}
    (hf : ∀ q, (fair q).OverCurrent p.relation.numVars) :
    ∃ sets m, (shrink constraint verbose s i fair).result = .ok (sets, m) ∧
      (∀ q, (sets q).OverCurrent p.relation.numVars) ∧
      (∀ x, Product.Contains sets x → Product.Contains fair x) ∧
      (∀ x, Product.Contains sets x → ∃ y, Product.Contains sets y ∧
        Relation.TransGen (p.Keeps .backward constraint) y x) ∧
      ∀ Z : p.Node → Prop, (∀ x, Z x → Product.Contains fair x) →
        (∀ x, Z x → ∃ y, Z y ∧ Relation.TransGen (p.Keeps .backward constraint) y x) →
        ∀ x, Z x → Product.Contains sets x := by
  -- Each pass finds the states from which the current sets are reached.
  have hpass : ∀ {s : Strategy p} {fair : StateSets n p.size}, s.engine = .sequential →
      (∀ q, (fair q).OverCurrent p.relation.numVars) →
      ∃ v, (s.reachable .backward fair constraint).result = .ok v ∧
        (∀ q, (v q).OverCurrent p.relation.numVars) ∧ ∀ x, Product.Contains v x ↔
          ∃ y, Product.Contains fair y ∧ Relation.TransGen (p.Keeps .backward constraint) y x := by
    intro s fair hs hf
    rw [(reachable_sequential hs .backward fair constraint).1]
    exact Product.search_states hp hcov hf hc
  fun_induction shrink constraint verbose s i fair with
  | case1 s i fair passage m hm =>
    obtain ⟨v, hv, -⟩ := hpass hs hf
    rw [hv] at hm
    cases hm
  | case2 s i fair passage backward hb events h =>
    obtain ⟨v, hv, -, hiff⟩ := hpass hs hf
    obtain rfl : backward = v := Except.ok.inj (hb.symm.trans hv)
    refine ⟨fair, i, rfl, hf, fun _ hx => hx, fun x hx => ?_, fun Z hZ _ => hZ⟩
    rw [← h, Product.contains_and] at hx
    exact (hiff x).mp hx.2
  | case3 s i fair passage backward hb events h rest ih =>
    obtain ⟨v, hv, hover, hiff⟩ := hpass hs hf
    obtain rfl : backward = v := Except.ok.inj (hb.symm.trans hv)
    obtain ⟨sets, m, hrest, hsets, hsub, hreturn, hlargest⟩ :=
      ih (reachable_sequential hs .backward fair constraint).2 fun q => by
        rw [StateSets.get_and]
        exact (hf q).and (hover q)
    refine ⟨sets, m, hrest, hsets, fun x hx => ?_, hreturn, fun Z hZ hback => ?_⟩
    · exact ((Product.contains_and _ _ _).mp (hsub x hx)).1
    · refine hlargest Z (fun x hx => (Product.contains_and _ _ _).mpr ⟨hZ x hx, ?_⟩) hback
      obtain ⟨y, hy, hpath⟩ := hback x hx
      exact (hiff x).mpr ⟨y, hZ y hy, hpath⟩

end Strategy

namespace Product

variable {n : Nat} {p : Product n}

theorem atAccepting_toList (reach : StateSets n p.size) : p.atAccepting reach.toList =
    .ok (.ofFn fun q => if p.automaton.accepting.contains q then reach q else .const false) := by
  refine Family.collect_eq_ok_iff.mpr fun q => ?_
  rw [Family.get_ofFn]
  split_ifs
  · simp [Family.toList_eq]
  · rfl

theorem contains_atAccepting {reach fair : StateSets n p.size}
    (hfair : p.atAccepting reach.toList = .ok fair) (x : p.Node) :
    Contains fair x ↔ x.2 ∈ p.automaton.accepting ∧ Contains reach x := by
  rw [atAccepting_toList] at hfair
  cases hfair
  by_cases hx : x.2 ∈ p.automaton.accepting <;> simp [Contains, Diagram.HoldsAt, hx]

theorem overCurrent_atAccepting {k : Nat} {reach fair : StateSets n p.size}
    (hreach : ∀ q, (reach q).OverCurrent k) (hfair : p.atAccepting reach.toList = .ok fair)
    (q : Fin p.size) : (fair q).OverCurrent k := by
  rw [atAccepting_toList] at hfair
  cases hfair
  rw [Family.get_ofFn]
  split_ifs
  · exact hreach q
  · exact .const false

end Product

namespace Strategy

variable {n : Nat} {p : Product n}

/-- Fair states are accepting, and an infinite path from them stays in the given sets and meets
accepting states again and again. -/
theorem fairStates_exact (hp : p.OverStates) {reach : StateSets n p.size}
    (hr : ∀ q, (reach q).OverCurrent p.relation.numVars) (verbose : Bool) {s : Strategy p}
    (hs : s.engine = .sequential) :
    ∃ sets m, (s.fairStates (some reach.toList) verbose).result = .ok (sets, m) ∧
      (∀ q, (sets q).OverCurrent p.relation.numVars) ∧
      ∀ x, Product.Contains sets x ↔ x.2 ∈ p.automaton.accepting ∧
        Recurs (fun y z => p.automaton.Step p.relation.Next y z ∧ Product.Contains reach y)
          (fun y => y.2 ∈ p.automaton.accepting) x := by
  let fair : StateSets n p.size :=
    .ofFn fun q => if p.automaton.accepting.contains q then reach q else .const false
  have hover := Product.overCurrent_atAccepting hr (Product.atAccepting_toList reach)
  have hfair := Product.contains_atAccepting (Product.atAccepting_toList reach)
  have hkeeps : ∀ x y, p.Keeps .backward (some reach.toList) y x ↔
      p.automaton.Step p.relation.Next x y ∧ Product.Contains reach x := by
    intro x y
    rw [Product.Keeps, Constraint.setAt_toList]
    rfl
  have hc : ∀ q : Fin p.size,
      (Constraint.setAt (some reach.toList) q).OverCurrent p.relation.numVars := by
    intro q
    rw [Constraint.setAt_toList]
    exact hr q
  obtain ⟨sets, m, hsets, hsover, hsub, hreturn, hlargest⟩ :=
    @shrink_exact n p hp _ (Constraint.covers_toList reach) hc verbose s hs 1 fair hover
  refine ⟨sets, m, ?_, hsover, fun x => ?_⟩
  · simp only [fairStates, Option.getD_some, Product.atAccepting_toList]
    exact hsets
  constructor
  · intro hx
    refine ⟨((hfair x).mp (hsub x hx)).1, ?_⟩
    have hZ : Recurs (fun y z => p.Keeps .backward (some reach.toList) z y)
        (Product.Contains sets) x := by
      refine recurs_of_returning (fun y hy => ?_) hx
      obtain ⟨z, hz, hpath⟩ := hreturn y hy
      exact ⟨z, hz, Relation.transGen_swap.mpr hpath⟩
    obtain ⟨f, h₀, hstep, hmeet⟩ := hZ
    refine ⟨f, h₀, fun i => (hkeeps _ _).mp (hstep i), fun m => ?_⟩
    obtain ⟨i, hi, hsi⟩ := hmeet m
    exact ⟨i, hi, ((hfair _).mp (hsub _ hsi)).1⟩
  · rintro ⟨hacc, f, rfl, hstep, hmeet⟩
    refine hlargest (fun y => ∃ i, f i = y ∧ y.2 ∈ p.automaton.accepting) ?_ ?_ _ ⟨0, rfl, hacc⟩
    · rintro y ⟨i, rfl, hy⟩
      exact (hfair _).mpr ⟨hy, (hstep i).2⟩
    · rintro y ⟨i, rfl, hy⟩
      obtain ⟨j, hij, hj⟩ := hmeet (i + 1)
      refine ⟨f j, ⟨j, rfl, hj⟩, Relation.transGen_swap.mp ?_⟩
      refine Nat.rel_of_forall_rel_succ_of_lt _ (fun k => .single ?_) (show i < j by omega)
      exact (hkeeps _ _).mpr (hstep k)

end Strategy
end SymbolicLtl
