import SymbolicLtl.Counting
import SymbolicLtl.Diagram.Basic

/-!
How many assignments of `n` variables a function rejects. A search that only ever adds assignments
ends because this number goes down.
-/
namespace SymbolicLtl

/-- The number whose binary digits are the values of the first `n` variables. -/
def assignmentCode (ρ : Nat → Bool) : Nat → Nat
  | 0 => 0
  | n + 1 => if ρ n then Nat.pow 2 n + assignmentCode ρ n else assignmentCode ρ n

theorem assignmentCode_lt (ρ : Nat → Bool) (n : Nat) : assignmentCode ρ n < Nat.pow 2 n := by
  induction n with
  | zero => simp [assignmentCode]
  | succ n ih =>
    have : Nat.pow 2 (n + 1) = Nat.pow 2 n * 2 := rfl
    unfold assignmentCode
    split <;> omega

theorem testBit_assignmentCode (ρ : Nat → Bool) {n v : Nat} (hv : v < n) :
    (assignmentCode ρ n).testBit v = ρ v := by
  induction n with
  | zero => omega
  | succ n ih =>
    have hlt : assignmentCode ρ n < 2 ^ n := assignmentCode_lt ρ n
    unfold assignmentCode
    by_cases h : v = n
    · subst h
      split
      · next hb => rw [Nat.pow_eq, Nat.testBit_two_pow_add_eq, Nat.testBit_lt_two_pow hlt, hb]; rfl
      · next hb => rw [Nat.testBit_lt_two_pow hlt]; simpa using hb
    · split
      · rw [Nat.pow_eq, Nat.testBit_two_pow_add_gt (by omega), ih (by omega)]
      · exact ih (by omega)

namespace Diagram

variable {n : Nat}

theorem eval_assignmentCode (a : Diagram n) (ρ : Nat → Bool) :
    a.eval (assignmentCode ρ n).testBit = a.eval ρ :=
  Tree.eval_congr a.reduced fun _ _ hv => testBit_assignmentCode ρ hv

/-- The number of assignments that a function rejects. -/
def rejected (a : Diagram n) : Nat := (List.range (Nat.pow 2 n)).countP fun k => !a.eval k.testBit

theorem rejected_le_pow (a : Diagram n) : a.rejected ≤ Nat.pow 2 n := by
  unfold rejected
  exact Nat.le_trans List.countP_le_length (Nat.le_of_eq List.length_range)

theorem rejected_le {a b : Diagram n} (h : ∀ ρ, a.eval ρ = true → b.eval ρ = true) :
    b.rejected ≤ a.rejected := by
  refine List.countP_mono_left fun k _ hk => ?_
  have := h k.testBit
  cases ha : a.eval k.testBit <;> simp_all

/-- A function that accepts more rejects fewer assignments. -/
theorem rejected_lt {a b : Diagram n} (h : ∀ ρ, a.eval ρ = true → b.eval ρ = true)
    (hne : a ≠ b) : b.rejected < a.rejected := by
  obtain ⟨ρ, hb, ha⟩ : ∃ ρ, b.eval ρ = true ∧ a.eval ρ = false := by
    refine Classical.byContradiction fun hno => hne (ext fun ρ => ?_)
    cases ha : a.eval ρ
    · cases hb : b.eval ρ
      · rfl
      · exact absurd ⟨ρ, hb, ha⟩ hno
    · exact (h ρ ha).symm
  have hmem : assignmentCode ρ n ∈ List.range (Nat.pow 2 n) :=
    List.mem_range.mpr (assignmentCode_lt ρ n)
  refine countP_lt_countP (fun k _ hk => ?_) hmem ?_ ?_
  · have := h k.testBit
    cases hk' : a.eval k.testBit <;> simp_all
  · simp [eval_assignmentCode, ha]
  · simp [eval_assignmentCode, hb]

/-- Joining a new assignment lowers the number of rejected ones. -/
theorem rejected_or_lt {a b : Diagram n} {ρ : Nat → Bool} (ha : a.eval ρ = false)
    (hb : b.eval ρ = true) : (a.or b).rejected < a.rejected :=
  rejected_lt (fun σ h => by simp [h]) fun e => by
    have := congrArg (fun d => d.eval ρ) e
    simp [ha, hb] at this

theorem rejected_or_le (a b : Diagram n) : (a.or b).rejected ≤ a.rejected :=
  rejected_le fun σ h => by simp [h]

end Diagram
end SymbolicLtl
