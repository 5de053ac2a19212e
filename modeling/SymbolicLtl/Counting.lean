/-! Comparing counts and sums over lists, for measures that go down. -/
namespace SymbolicLtl

/-- Fewer members satisfy a narrower predicate when some member satisfies only the wider one. -/
theorem countP_lt_countP {α : Type} {p q : α → Bool} {l : List α}
    (h : ∀ x ∈ l, q x = true → p x = true) {a : α} (ha : a ∈ l) (hp : p a = true)
    (hq : q a = false) : l.countP q < l.countP p := by
  induction l with
  | nil => cases ha
  | cons x l ih =>
    have hl : ∀ y ∈ l, q y = true → p y = true := fun y hy => h y (List.mem_cons_of_mem x hy)
    have hx := h x List.mem_cons_self
    rw [List.countP_cons, List.countP_cons]
    cases ha with
    | head =>
      have := List.countP_mono_left hl
      simp only [hp, hq]
      simp
      omega
    | tail _ ha =>
      have := ih hl ha
      cases hqx : q x <;> cases hpx : p x <;> simp_all
      omega

/-- The sum of an amount over a list. -/
def sumOf {α : Type} (f : α → Nat) : List α → Nat
  | [] => 0
  | x :: l => f x + sumOf f l

@[simp] theorem sumOf_append {α : Type} (f : α → Nat) (l m : List α) :
    sumOf f (l ++ m) = sumOf f l + sumOf f m := by
  induction l with
  | nil => simp [sumOf]
  | cons x l ih => simp [sumOf, ih, Nat.add_assoc]

theorem sumOf_le {α : Type} {f g : α → Nat} {l : List α} (h : ∀ x ∈ l, g x ≤ f x) :
    sumOf g l ≤ sumOf f l := by
  induction l with
  | nil => exact Nat.le_refl _
  | cons x l ih =>
    have := h x List.mem_cons_self
    have := ih fun y hy => h y (List.mem_cons_of_mem x hy)
    simp only [sumOf]
    omega

/-- A sum gets smaller when no term grows and one shrinks. -/
theorem sumOf_lt {α : Type} {f g : α → Nat} {l : List α} (h : ∀ x ∈ l, g x ≤ f x) {a : α}
    (ha : a ∈ l) (hlt : g a < f a) : sumOf g l < sumOf f l := by
  induction l with
  | nil => cases ha
  | cons x l ih =>
    have hl : ∀ y ∈ l, g y ≤ f y := fun y hy => h y (List.mem_cons_of_mem x hy)
    have hx := h x List.mem_cons_self
    simp only [sumOf]
    cases ha with
    | head => have := sumOf_le hl; omega
    | tail _ ha => have := ih hl ha; omega

end SymbolicLtl
