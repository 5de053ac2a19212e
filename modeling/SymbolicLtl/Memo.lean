import Std.Data.HashMap

/-!
Tables of values that have been computed already. What a table holds about a function is true of the
function, so a computation that looks into one gives what it would give without.
-/
namespace SymbolicLtl

/-- The value `x`, however it is obtained. -/
abbrev Exactly {α : Type} (x : α) := { y : α // y = x }

/-- Some values of a function. -/
structure Memo {α β : Type} [BEq α] [Hashable α] (f : α → β) where
  table : Std.HashMap α β
  sound : ∀ a b, table[a]? = some b → b = f a

namespace Memo

variable {α β : Type} [BEq α] [LawfulBEq α] [Hashable α] {f : α → β}

def empty : Memo f := ⟨∅, by simp⟩

def find? (m : Memo f) (a : α) : Option (Exactly (f a)) :=
  match h : m.table[a]? with
  | some b => some ⟨b, m.sound a b h⟩
  | none => none

def insert (m : Memo f) (a : α) (b : Exactly (f a)) : Memo f where
  table := m.table.insert a b.val
  sound a' b' h := by
    rw [Std.HashMap.getElem?_insert] at h
    split at h
    · next e =>
      rw [beq_iff_eq] at e
      subst e
      exact (Option.some.inj h) ▸ b.property
    · exact m.sound a' b' h

end Memo
end SymbolicLtl
