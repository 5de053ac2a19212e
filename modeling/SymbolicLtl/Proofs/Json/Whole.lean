import Mathlib.Data.Int.Order.Basic
import SymbolicLtl.Json.Whole

/-! Whole numbers of at most 53 bits are doubles, so they come back from the wire as they were. -/
namespace SymbolicLtl

theorem roundHalfEven_mul (k : Nat) {d : Nat} (hd : 0 < d) : roundHalfEven (k * d) d = k := by
  unfold roundHalfEven
  rw [Nat.mul_div_cancel _ hd, Nat.mul_mod_left]
  have hup : ¬ (d < 2 * 0 ∨ 2 * 0 = d ∧ k % 2 = 1) := by omega
  exact if_neg hup

namespace Double

structure IsInt (x : Double) (n : Int) : Prop where
  sign : x.mantissa.sign = n.sign
  ratio : x.ratio.1 = n.natAbs * x.ratio.2

theorem ratio_pos (x : Double) : 0 < x.ratio.2 := by
  unfold ratio
  split
  · exact Nat.one_pos
  · exact Nat.two_pow_pos _

namespace IsInt

variable {x : Double} {n : Int} (h : x.IsInt n)

include h

theorem truncate_eq : x.truncate = n := by
  rw [truncate, h.sign, h.ratio, Nat.mul_div_cancel _ x.ratio_pos]
  exact Int.sign_mul_natAbs n

theorem isWhole : x.isWhole = true := by
  rw [Double.isWhole, h.ratio, Nat.mul_mod_left]
  rfl

end IsInt

/-- A number of at most 53 bits is shifted until it has 53. -/
theorem nearest_of_lt {v : Nat} (hpos : 0 < v) (hlt : v < 9007199254740992) :
    nearest v 1 = (v * Nat.pow 2 (52 - v.log2), (v.log2 : Int) - 52) := by
  have hlog : v.log2 < 53 := (Nat.log2_lt (by omega)).mpr hlt
  have hlow : 2 ^ v.log2 ≤ v := Nat.log2_self_le (by omega)
  have hone : Nat.log2 1 = 0 := by decide
  have hguess : ((v.log2 : Int) - Nat.log2 1) = v.log2 := by omega
  have hbelow : ¬ v < 1 * Nat.pow 2 (v.log2 : Int).toNat := by simpa using hlow
  unfold nearest nearestBinary
  simp only [hguess, Int.natCast_nonneg, if_true, hbelow, decide_false, Bool.false_eq_true, if_false]
  have hleast : ¬ (v.log2 : Int) - ((53 : Nat) - 1 : Int) < -1074 := by omega
  rw [if_neg hleast]
  refine Prod.ext ?_ (by simp)
  by_cases hfull : v.log2 = 52
  · simpa [hfull] using roundHalfEven_mul v Nat.one_pos
  · have hneg : ¬ (0 : Int) ≤ (v.log2 : Int) - ((53 : Nat) - 1 : Int) := by omega
    have hshift : (-((v.log2 : Int) - ((53 : Nat) - 1 : Int))).toNat = 52 - v.log2 := by omega
    simp only [if_neg hneg, hshift]
    simpa using roundHalfEven_mul (v * Nat.pow 2 (52 - v.log2)) Nat.one_pos

theorem isInt_of_nearest {n : Int} (hn : n ≠ 0) (h : n.natAbs ≤ 9007199254740992) :
    (⟨n.sign * (nearest n.natAbs 1).1, (nearest n.natAbs 1).2⟩ : Double).IsInt n := by
  have hpos : 0 < n.natAbs := Int.natAbs_pos.mpr hn
  have hsign : n.sign.natAbs = 1 := Int.natAbs_sign_of_ne_zero hn
  rcases Nat.lt_or_eq_of_le h with hlt | heq
  · have hlog : n.natAbs.log2 < 53 := (Nat.log2_lt (by omega)).mpr hlt
    have hbits : 0 < n.natAbs * Nat.pow 2 (52 - n.natAbs.log2) :=
      Nat.mul_pos hpos (Nat.two_pow_pos _)
    rw [nearest_of_lt hpos hlt]
    constructor
    · dsimp only
      rw [Int.sign_mul, Int.sign_sign, Int.sign_natCast_of_ne_zero (by omega), Int.mul_one]
    · unfold ratio
      dsimp only
      rw [Int.natAbs_mul, hsign, Int.natAbs_natCast, Nat.one_mul]
      by_cases hfull : n.natAbs.log2 = 52
      · simp [hfull]
      · have hneg : ¬ (0 : Int) ≤ (n.natAbs.log2 : Int) - 52 := by omega
        have hshift : (-((n.natAbs.log2 : Int) - 52)).toNat = 52 - n.natAbs.log2 := by omega
        rw [if_neg hneg, hshift]
  · -- Of the numbers of 54 bits this is the only one, and its last bit is zero.
    rcases Int.natAbs_eq n with hn' | hn'
    · rw [heq] at hn'
      subst hn'
      exact ⟨by decide, by decide⟩
    · rw [heq] at hn'
      subst hn'
      exact ⟨by decide, by decide⟩

theorem isInt_ofDecimal {n : Int} (h : n.natAbs ≤ 9007199254740992) :
    (ofDecimal ⟨n, 0⟩).IsInt n := by
  have hof : ofDecimal ⟨n, 0⟩ = ofRatio n.sign n.natAbs 1 := by simp [ofDecimal]
  rw [hof, ofRatio]
  by_cases hn : n = 0
  · subst hn
    exact ⟨rfl, rfl⟩
  · rw [if_neg (Int.natAbs_ne_zero.mpr hn)]
    exact isInt_of_nearest hn h

end Double

/-- A whole number of at most 53 bits is read as it was written. -/
theorem JsonValue.readInt_ofInt {n : Int} (h : n.natAbs ≤ 9007199254740992) :
    readInt (.ofInt n) = .ok (some n) := by
  have hint := Double.isInt_ofDecimal h
  have hshort : Double.shortestWhole n.natAbs = n.natAbs := if_pos h
  have hwhole : (⟨n, 0⟩ : Decimal).whole? = some n := by
    unfold Decimal.whole?
    simp only [hint.isWhole, hint.truncate_eq, hshort, if_true, Int.sign_mul_natAbs]
    exact if_pos (by omega)
  simp only [readInt, ofInt, hwhole]

end SymbolicLtl
