import Mathlib.Tactic.IntervalCases
import SymbolicLtl.Text.Integer

/-! Writing a number by halves gives its usual decimal notation. -/
namespace SymbolicLtl.Text

def paddedDigits : Nat → Nat → List Char
  | 0, _ => []
  | len + 1, n => paddedDigits len (n / 10) ++ [Nat.digitChar (n % 10)]

theorem paddedDigits_add (a b n : Nat) :
    paddedDigits (a + b) n = paddedDigits a (n / 10 ^ b) ++ paddedDigits b (n % 10 ^ b) := by
  induction b generalizing n with
  | zero => simp [paddedDigits]
  | succ b ih =>
    have hdiv : n / 10 / 10 ^ b = n / 10 ^ (b + 1) := by
      rw [Nat.div_div_eq_div_mul, Nat.pow_succ, Nat.mul_comm]
    have hmod : n / 10 % 10 ^ b = n % 10 ^ (b + 1) / 10 := by
      rw [Nat.pow_succ, Nat.mod_mul_left_div_self]
    have hlast : n % 10 ^ (b + 1) % 10 = n % 10 :=
      Nat.mod_mod_of_dvd n ⟨10 ^ b, Nat.pow_succ'⟩
    rw [← Nat.add_assoc, paddedDigits, ih, paddedDigits, hdiv, hmod, hlast, List.append_assoc]

theorem lastDigits_eq (k n : Nat) : lastDigits k n = paddedDigits (2 ^ k) n := by
  induction k generalizing n with
  | zero => simp [lastDigits, paddedDigits]
  | succ k ih =>
    rw [lastDigits, ih, ih, Nat.pow_succ, Nat.mul_two, paddedDigits_add]
    rfl

theorem dropWhile_paddedDigits {len n : Nat} (h : n < 10 ^ len) :
    (paddedDigits len n).dropWhile (· == '0') = if n = 0 then [] else Nat.toDigits 10 n := by
  induction len generalizing n with
  | zero => simp [paddedDigits, show n = 0 by simpa using h]
  | succ len ih =>
    have hlt : n / 10 < 10 ^ len := by
      rw [Nat.div_lt_iff_lt_mul (by decide)]
      exact h
    rw [paddedDigits, List.dropWhile_append, ih hlt]
    by_cases hsmall : n / 10 = 0
    · have hn : n < 10 := by omega
      rw [if_pos hsmall, List.isEmpty_nil, if_pos rfl, Nat.mod_eq_of_lt hn]
      split_ifs with h0
      · simp [h0, Nat.digitChar]
      · have hne : Nat.digitChar n ≠ '0' := by
          have hpos : 0 < n := Nat.pos_of_ne_zero h0
          interval_cases n <;> decide
        rw [Nat.toDigits_of_lt_base hn]
        simp [hne]
    · have hpos : 0 < n / 10 := Nat.pos_of_ne_zero hsmall
      have hdigits : Nat.toDigits 10 (n / 10) ++ Nat.toDigits 10 (n % 10) = Nat.toDigits 10 n := by
        rw [Nat.toDigits_append_toDigits (by decide) hpos (Nat.mod_lt _ (by decide)),
          Nat.div_add_mod]
      have hne : ¬(Nat.toDigits 10 (n / 10)).isEmpty = true := by
        simp [Nat.toDigits_ne_nil]
      rw [if_neg hsmall, if_neg hne, if_neg (by omega), ← hdigits,
        Nat.toDigits_of_lt_base (Nat.mod_lt _ (by decide))]

/-- The text of a number is its decimal notation. -/
theorem decimal_eq (n : Nat) : decimal n = toString n := by
  have hlen : n < 10 ^ 2 ^ (Nat.log2 (Nat.log2 n + 1) + 1) := by
    calc n < 2 ^ (Nat.log2 n + 1) := Nat.lt_log2_self
      _ ≤ 10 ^ (Nat.log2 n + 1) := Nat.pow_le_pow_left (by decide) _
      _ ≤ 10 ^ 2 ^ (Nat.log2 (Nat.log2 n + 1) + 1) :=
        Nat.pow_le_pow_right (by decide) (Nat.le_of_lt Nat.lt_log2_self)
  unfold decimal
  rw [lastDigits_eq, dropWhile_paddedDigits hlen]
  by_cases h0 : n = 0
  · subst h0
    rfl
  · rw [if_neg h0, Nat.toString_eq_ofList_toDigits]
    split
    · next hnil => exact absurd hnil Nat.toDigits_ne_nil
    · next hds => rfl

end SymbolicLtl.Text
