/-! Whole numbers in words of 64 bits, and the lists that fit into memory. -/
namespace SymbolicLtl

/-- The number of 64 bits, one of them the sign, that agrees with `x` modulo `2 ^ 64`. -/
def wordOf (x : Int) : Int := Int.bmod x 18446744073709551616

/-- Numbers that fit stay as they are. -/
theorem wordOf_eq_self {x : Int} (hlo : -9223372036854775808 ≤ x) (hhi : x < 9223372036854775808) :
    wordOf x = x := by
  refine Int.bmod_eq_of_le ?_ ?_ <;> omega

/-- The largest number of bytes that a list can take. -/
def memoryLimit : Nat := 281474976710656

/-- The number of entries of a list, each of the given number of bytes. -/
def listLength? (bytes : Nat) (length : Int) : Option Nat :=
  if 0 ≤ length ∧ length * bytes ≤ memoryLimit then some length.toNat else none

end SymbolicLtl
