import SymbolicLtl.Diagram.Workspace
import SymbolicLtl.Proofs.Attempt
import SymbolicLtl.Proofs.Diagram.Dependence

/-!
What the operations on values of one manager give. A set of variables stands for the variables that
its function asks to be true.
-/
namespace SymbolicLtl

/-- The variables on the high path of a conjunction of variables are those of the conjunction. -/
theorem Tree.mem_highPath {t : Tree} {k n : Nat} (ht : t.Reduced k n) {P : Nat → Prop}
    (h : ∀ ρ, t.eval ρ = true ↔ ∀ v, P v → ρ v = true) (v : Nat) : v ∈ t.highPath ↔ P v := by
  induction t generalizing k P with
  | leaf b =>
    have hb : b = true := (h fun _ => true).mpr fun _ _ => rfl
    have hnone : ¬ P v := fun hv => Bool.false_ne_true ((h fun _ => false).mp hb v hv)
    simp [highPath, hnone]
  | node w l r ihl ihr =>
    obtain ⟨hkw, hwn, hne, hl, hr⟩ := ht
    have hlow : ∀ ρ, (node w l r).eval (update ρ w false) = l.eval ρ := by
      intro ρ
      rw [← eval_update hl (Nat.lt_succ_self w) ρ false]
      simp [update]
    have hhigh : ∀ ρ, (node w l r).eval (update ρ w true) = r.eval ρ := by
      intro ρ
      rw [← eval_update hr (Nat.lt_succ_self w) ρ true]
      simp [update]
    -- A test of another variable than those of the conjunction would be idle.
    have hw : P w := by
      by_contra hw
      apply hne
      apply eq_of_eval_eq hl hr
      intro ρ
      rw [← hlow, ← hhigh, Bool.eq_iff_iff, h, h]
      refine forall_congr' fun v => imp_congr_right fun hv => ?_
      have hvw : v ≠ w := fun e => hw (e ▸ hv)
      simp [update, hvw]
    have hrest : ∀ ρ, r.eval ρ = true ↔ ∀ v, P v ∧ v ≠ w → ρ v = true := by
      intro ρ
      rw [← hhigh, h]
      refine forall_congr' fun v => ?_
      by_cases hvw : v = w
      · simp [update, hvw]
      · simp [update, hvw]
    rw [highPath, List.mem_cons, ihr hr hrest]
    by_cases hvw : v = w
    · simp [hvw, hw]
    · simp [hvw]

namespace Diagram

variable {n : Nat}

theorem mem_highVars {s : Diagram n} {P : Nat → Prop}
    (h : ∀ ρ, s.eval ρ = true ↔ ∀ v, P v → ρ v = true) (v : Nat) : v ∈ s.highVars ↔ P v :=
  Tree.mem_highPath s.reduced h v

theorem eq_const_true {s : Diagram n} (h : s.isTrue = true) : s = const true :=
  (isConst_iff s true).mp h

theorem exist_nil (d : Diagram n) : d.exist [] = d := by
  apply ext
  intro ρ
  rw [Bool.eq_iff_iff, eval_exist]
  constructor
  · rintro ⟨σ, hσ, he⟩
    rwa [funext fun v => hσ v List.not_mem_nil] at he
  · intro he
    exact ⟨ρ, fun _ _ => rfl, he⟩

end Diagram

namespace Manager

variable (m : Manager)

@[simp] theorem own_value (d : Diagram m.varnum) : m.own (m.value d) = .ok d :=
  dif_pos (rfl : (m.value d).owner = m)

theorem support_own (v : Value) : v.owner.support v = .ok v.diagram.support := by
  have hown : v.owner.own v = .ok v.diagram := own_value v.owner v.diagram
  rw [support, hown]
  rfl

theorem literal_eq {i : Int} (h : 0 ≤ i ∧ i < m.varnum) (positive : Bool) :
    m.literal i positive = .ok (m.value (.literal ⟨i.toNat, by omega⟩ positive)) := by
  rw [literal, Diagram.checkVar, dif_pos h]
  rfl

theorem bounds_of_literal {i : Int} {positive : Bool} {v : Value}
    (h : m.literal i positive = .ok v) : 0 ≤ i ∧ i < m.varnum := by
  by_contra hi
  rw [literal, Diagram.checkVar, dif_neg hi] at h
  cases h

theorem cube_eq {lits : List Diagram.Literal} {d : Diagram m.varnum}
    (h : Diagram.cube lits = .ok d) : m.cube lits = .ok (m.value d) := by
  rw [cube, h]
  rfl

/-- A manager without failures gives every set. -/
theorem varSet_eq {vars : List Int} {d : Diagram m.varnum} {w : Workspace}
    (hw : w.incidentsOf m = []) (h : Diagram.varSet vars = .ok d) :
    (m.varSet vars).run.run w = (.ok (m.value d), w) := by
  unfold varSet
  rw [Attempt.run_bind_ok (by rw [Attempt.run_liftM, h])]
  change ((if (w.incidentsOf m).isEmpty = true ∨ vars.isEmpty = true then
    pure (m.value d) else pure (m.const false) : WorkspaceM Value)).run.run w = _
  rw [hw, if_pos (.inl rfl)]
  rfl

/-- Quantification of the variables of a set that is not the constant false. -/
theorem exist_eq {d s : Diagram m.varnum} (hs : s.isFalse = false) (w : Workspace) :
    (m.exist (m.value d) (m.value s)).run.run w = (.ok (m.value (d.exist s.highVars)), w) := by
  by_cases htrue : (m.value s).diagram.isTrue = true
  · have hvars : s.highVars = [] := by
      rw [show s = .const true from Diagram.eq_const_true htrue]
      rfl
    rw [hvars, Diagram.exist_nil]
    unfold exist
    rw [if_pos htrue]
    rfl
  · unfold exist
    rw [if_neg htrue, Attempt.run_bind_ok (by rw [Attempt.run_liftM, own_value]),
      Attempt.run_bind_ok (by rw [Attempt.run_liftM, own_value]), if_neg (by simp [hs])]
    rfl

end Manager

namespace Value

variable (m : Manager)

theorem combine_eq (f : Bool → Bool → Bool) (a b : Diagram m.varnum) :
    combine f (m.value a) (m.value b) = .ok (m.value (.combine f a b)) := by
  change (m.own (m.value b) >>= fun b => Except.ok (m.value (.combine f a b))) = _
  rw [Manager.own_value, Attempt.ok_bind]

theorem andExist_eq (s a b : Diagram m.varnum) :
    andExist m (m.value s) (m.value a) (m.value b) =
      .ok (m.value (Diagram.andExist s.highVars a b)) := by
  by_cases htrue : (m.value s).diagram.isTrue = true
  · have hvars : s.highVars = [] := by
      rw [show s = .const true from Diagram.eq_const_true htrue]
      rfl
    rw [hvars]
    unfold andExist
    rw [if_pos htrue, combine_eq]
    rfl
  · unfold andExist
    rw [if_neg htrue, Manager.own_value, Attempt.ok_bind, Manager.own_value, Attempt.ok_bind,
      Manager.own_value, Attempt.ok_bind]
    rfl

theorem equal_eq (a b : Diagram m.varnum) :
    (m.value a).equal (m.value b) = .ok (decide (a = b)) := by
  change (m.own (m.value b) >>= fun b => Except.ok (decide (a = b))) = _
  rw [Manager.own_value, Attempt.ok_bind]

theorem implies_eq (a b : Diagram m.varnum) :
    (m.value a).implies (m.value b) = .ok (a.implies b) := by
  change (m.own (m.value b) >>= fun b => Except.ok (a.implies b)) = _
  rw [Manager.own_value, Attempt.ok_bind]

end Value
end SymbolicLtl
