import Mathlib.Data.Fintype.BigOperators
import Mathlib.Logic.Equiv.Fin.Basic
import Mathlib.SetTheory.Cardinal.Finite
import SymbolicLtl.Proofs.Diagram.Values
import SymbolicLtl.Proofs.Relation.States

/-!
Counting assignments on a decision tree counts the satisfying assignments of all variables. In a set
of states all but the current values are free, so dividing by their assignments counts its states.
-/
namespace SymbolicLtl

/-- The assignment with given values from variable `k` on; other variables are false. -/
def assignFrom {m : Nat} (k : Nat) (f : Fin m → Bool) : Nat → Bool := fun v =>
  if h : k ≤ v ∧ v - k < m then f ⟨v - k, h.2⟩ else false

theorem IsCurrent.half_lt {k v : Nat} (h : IsCurrent k v) : v / 2 < k := by
  unfold IsCurrent at h
  omega

theorem IsCurrent.currentVar_half {k v : Nat} (h : IsCurrent k v) : currentVar (v / 2) = v := by
  unfold IsCurrent at h
  unfold currentVar
  omega

theorem half_currentVar (i : Nat) : currentVar i / 2 = i := by
  unfold currentVar
  omega

theorem currentVar_lt {n k : Nat} (hk : 2 * k ≤ n) (i : Fin k) : currentVar i < n := by
  unfold currentVar
  omega

namespace Tree

theorem count_eq_cofactor {k n : Nat} {t : Tree} (ht : t.Reduced k n) (hk : k < n) :
    t.count n k = (t.cofactor k false).count n (k + 1) + (t.cofactor k true).count n (k + 1) := by
  cases t with
  | leaf b =>
    cases b with
    | false => rfl
    | true =>
      simp only [cofactor, count, Nat.pow_eq]
      rw [show n - k = n - (k + 1) + 1 by omega, Nat.pow_succ]
      omega
  | node v l h =>
    obtain ⟨hkv, _⟩ := ht
    by_cases hv : v = k
    · subst hv
      simp [cofactor, count]
    · have hkeep : ∀ b, (node v l h).cofactor k b = node v l h := by
        intro b
        simp [cofactor, hv]
      simp only [hkeep, count, Nat.pow_eq]
      rw [show v - k = v - (k + 1) + 1 by omega, Nat.pow_succ, Nat.mul_two, Nat.add_mul]

theorem eval_cons {k n m : Nat} {t : Tree} (ht : t.Reduced k n) (hn : n = k + (m + 1)) (b : Bool)
    (f : Fin m → Bool) : t.eval (assignFrom k (Fin.cons b f : Fin (m + 1) → Bool)) =
      (t.cofactor k b).eval (assignFrom (k + 1) f) := by
  rw [eval_cofactor ht]
  refine eval_congr ht fun v hkv hvn => ?_
  rcases hkv.eq_or_lt with rfl | hlt
  · simp [assignFrom, update]
  · have hsub : v - k = v - (k + 1) + 1 := by omega
    simp only [assignFrom, update, show v ≠ k by omega, if_false, hsub]
    rw [dif_pos (by omega), dif_pos (by omega)]
    exact Fin.cons_succ (α := fun _ => Bool) b f ⟨v - (k + 1), by omega⟩

theorem count_eq_sum {k n m : Nat} {t : Tree} (ht : t.Reduced k n) (hn : n = k + m) :
    t.count n k = ∑ f : Fin m → Bool, if t.eval (assignFrom k f) then 1 else 0 := by
  induction m generalizing k t with
  | zero =>
    cases t with
    | node v l h => have := ht.1; have := ht.2.1; omega
    | leaf b => cases b <;> simp [count, hn]
  | succ m ih =>
    rw [count_eq_cofactor ht (by omega), ih (ht.cofactor false) (by omega),
      ih (ht.cofactor true) (by omega), ← (Fin.consEquiv fun _ : Fin (m + 1) => Bool).sum_comp,
      Fintype.sum_prod_type, Fintype.sum_bool, Nat.add_comm]
    exact congrArg₂ (· + ·) (Finset.sum_congr rfl fun f _ => by rw [← eval_cons ht hn true f]; rfl)
      (Finset.sum_congr rfl fun f _ => by rw [← eval_cons ht hn false f]; rfl)

end Tree

namespace Diagram

variable {n k : Nat}

/-- The count is the number of satisfying assignments of all variables. -/
theorem satCount_eq_card (a : Diagram n) :
    a.satCount = Nat.card { f : Fin n → Bool // a.eval (assignFrom 0 f) = true } := by
  rw [satCount_eq, Tree.count_eq_sum a.reduced (Nat.zero_add n).symm, Nat.card_eq_fintype_card,
    Fintype.card_subtype, Finset.card_filter]
  rfl

/-- The diagram variables that hold current values stand for the state variables. -/
def currentEquiv (hk : 2 * k ≤ n) : { i : Fin n // IsCurrent k i } ≃ Fin k where
  toFun i := ⟨i.val / 2, i.property.half_lt⟩
  invFun i := ⟨⟨currentVar i, currentVar_lt hk i⟩, isCurrent_currentVar i⟩
  left_inv i := Subtype.ext (Fin.ext i.property.currentVar_half)
  right_inv i := Fin.ext (half_currentVar i)

/-- An assignment of all variables is a state with values of the other variables. -/
noncomputable def assignmentEquiv (hk : 2 * k ≤ n) :
    (Fin n → Bool) ≃ State k × ({ i : Fin n // ¬ IsCurrent k i } → Bool) := by
  classical
  exact (Equiv.piEquivPiSubtypeProd (fun i : Fin n => IsCurrent k i) fun _ => Bool).trans
    (Equiv.prodCongr (Equiv.arrowCongr (currentEquiv hk) (Equiv.refl Bool)) (Equiv.refl _))

theorem fst_assignmentEquiv (hk : 2 * k ≤ n) (f : Fin n → Bool) :
    (assignmentEquiv hk f).1 = State.current k (assignFrom 0 f) := by
  funext i
  have hi : currentVar i < n := currentVar_lt hk i
  simp only [State.current, assignFrom, Nat.zero_le, Nat.sub_zero, true_and, hi, dif_pos]
  rfl

/-- Each state of a set stands for as many assignments as the other variables have. -/
theorem satCount_eq_card_mul {a : Diagram n} (ha : a.OverCurrent k) (hk : 2 * k ≤ n) :
    a.satCount = Nat.card { s : State k // a.HoldsAt s } * 2 ^ (n - k) := by
  classical
  have hsplit : { f : Fin n → Bool // a.eval (assignFrom 0 f) = true } ≃
      { s : State k // a.HoldsAt s } × ({ i : Fin n // ¬ IsCurrent k i } → Bool) :=
    ((assignmentEquiv hk).subtypeEquiv fun f => by
      rw [ha.eval_eq_true, ← fst_assignmentEquiv hk]).trans
      (Equiv.prodSubtypeFstEquivSubtypeProd (p := fun s : State k => a.HoldsAt s))
  have hother : Nat.card ({ i : Fin n // ¬ IsCurrent k i } → Bool) = 2 ^ (n - k) := by
    rw [Nat.card_eq_fintype_card, Fintype.card_fun, Fintype.card_bool, Fintype.card_subtype_compl,
      Fintype.card_congr (currentEquiv hk), Fintype.card_fin, Fintype.card_fin]
  rw [satCount_eq_card, Nat.card_congr hsplit, Nat.card_prod, hother]

end Diagram

namespace Relation

theorem stateCount_eq_card {n : Nat} (r : Relation n) {s : Diagram n}
    (hs : s.OverCurrent r.numVars) :
    r.stateCount s = Nat.card { x : State r.numVars // s.HoldsAt x } := by
  rw [stateCount, Diagram.satCount_eq_card_mul hs r.fits, Nat.pow_eq]
  exact Nat.mul_div_cancel _ (Nat.two_pow_pos _)

/-- In a manager with variables for all current and next values, and with any others besides, the
satisfying assignments of a set of states are counted exactly. A state stands for all assignments of the
variables that are not current, so the count is a multiple of their number, and what is left of it
without them is the number of states. -/
theorem stateCount_exact (m : Manager) (r : Relation m.varnum) {s : Diagram m.varnum}
    (hs : s.OverCurrent r.numVars) :
    ∃ count, m.satCount (m.value s) = .ok count ∧
      count = Nat.card { f : Fin m.varnum → Bool // s.eval (assignFrom 0 f) = true } ∧
      2 ^ (m.varnum - r.numVars) ∣ count ∧
      r.stateCount s = Nat.card { x : State r.numVars // s.HoldsAt x } := by
  have hcount : m.satCount (m.value s) = .ok s.satCount := by
    rw [Manager.satCount, Manager.own_value]
    rfl
  refine ⟨s.satCount, hcount, s.satCount_eq_card, ?_, r.stateCount_eq_card hs⟩
  rw [Diagram.satCount_eq_card_mul hs r.fits]
  exact Nat.dvd_mul_left _ _

def spacious : Manager := ⟨0, 5⟩

def either : Diagram spacious.varnum :=
  (Diagram.literal ⟨0, by decide⟩ true).or (.literal ⟨2, by decide⟩ true)

def unconstrained : Relation spacious.varnum := .ofParts 2 (by decide) .partition (.const true) [.const true]

/-- Three of the four states have a true variable, and each stands for eight assignments. -/
theorem stateCount_either : either.OverCurrent unconstrained.numVars ∧
    Nat.card { f : Fin spacious.varnum → Bool // either.eval (assignFrom 0 f) = true } = 24 ∧
    2 ^ (spacious.varnum - unconstrained.numVars) ∣ 24 ∧
    Nat.card { x : State unconstrained.numVars // either.HoldsAt x } = 3 := by
  have hover : either.OverCurrent unconstrained.numVars :=
    .combine _ (.literal ⟨by decide, rfl⟩ true) (.literal ⟨by decide, rfl⟩ true)
  have hsat : spacious.satCount (spacious.value either) = .ok 24 := rfl
  have hstates : unconstrained.stateCount either = 3 := rfl
  obtain ⟨count, hcount, hassignments, hdvd, hcard⟩ := stateCount_exact spacious unconstrained hover
  obtain rfl := Except.ok.inj (hsat.symm.trans hcount)
  exact ⟨hover, hassignments.symm, hdvd, hcard.symm.trans hstates⟩

end Relation
end SymbolicLtl
