import SymbolicLtl.Diagram.Sharing
import SymbolicLtl.Misuse

/-!
Boolean functions of the variables `0, …, n - 1`, each held as its reduced ordered decision tree.
Two diagrams are equal exactly when they have the same value under every assignment.
-/
namespace SymbolicLtl

/-- A Boolean function of `n` variables. -/
structure Diagram (n : Nat) where
  tree : Tree
  reduced : tree.Reduced 0 n

namespace Diagram

variable {n : Nat}

instance : DecidableEq (Diagram n) := fun a b =>
  match Tree.Shared.decideEq a.tree b.tree with
  | .isTrue h => .isTrue (by cases a; cases b; simp_all)
  | .isFalse h => .isFalse fun e => h (e ▸ rfl)

def ofTree {t : Tree} (x : Exactly t) (h : t.Reduced 0 n) : Diagram n :=
  ⟨x.val, by rw [x.property]; exact h⟩

@[simp] theorem tree_ofTree {t : Tree} (x : Exactly t) (h : t.Reduced 0 n) :
    (ofTree x h).tree = t := x.property

def eval (d : Diagram n) (ρ : Nat → Bool) : Bool := d.tree.eval ρ

/-- Diagrams are equal when their values are. -/
theorem ext {a b : Diagram n} (h : ∀ ρ, a.eval ρ = b.eval ρ) : a = b := by
  cases a with
  | mk s hs =>
    cases b with
    | mk t ht =>
      have : s = t := Tree.eq_of_eval_eq hs ht h
      subst this
      rfl

def const (b : Bool) : Diagram n := ⟨.leaf b, trivial⟩

instance : Inhabited (Diagram n) := ⟨const false⟩

/-- The function that is true where variable `i` has the value `positive`. -/
def literal (i : Fin n) (positive : Bool) : Diagram n :=
  ⟨.node i (.leaf !positive) (.leaf positive), Tree.reduced_variable (Nat.zero_le _) i.isLt positive⟩

def var (i : Fin n) : Diagram n := literal i true

def not (a : Diagram n) : Diagram n := ofTree (Tree.Shared.neg a.tree) a.reduced.neg

def combine (f : Bool → Bool → Bool) (a b : Diagram n) : Diagram n :=
  ofTree (Tree.Shared.combine f a.tree b.tree) (a.reduced.combine f b.reduced)

def and (a b : Diagram n) : Diagram n := combine (· && ·) a b

def or (a b : Diagram n) : Diagram n := combine (· || ·) a b

def xor (a b : Diagram n) : Diagram n := combine (· != ·) a b

def imp (a b : Diagram n) : Diagram n := combine (fun x y => !x || y) a b

def iff (a b : Diagram n) : Diagram n := combine (· == ·) a b

/-- True where `a` is and `b` is not. -/
def diff (a b : Diagram n) : Diagram n := combine (fun x y => x && !y) a b

theorem reduced_select (i : Fin n) (low high : Diagram n) :
    (Tree.select i low.tree high.tree).Reduced 0 n :=
  Tree.Reduced.select (Nat.zero_le _) i.isLt low.reduced high.reduced

/-- Chooses between two functions by the value of a variable. -/
def select (i : Fin n) (low high : Diagram n) : Diagram n :=
  ofTree (Tree.Shared.select i low.tree high.tree) (reduced_select i low high)

/-- Removes the listed variables by existential quantification. -/
def exist (vars : List Nat) (a : Diagram n) : Diagram n :=
  ofTree (Tree.Shared.exist vars.contains a.tree) (a.reduced.exist _)

/-- Quantifies the listed variables in a conjunction. -/
def andExist (vars : List Nat) (a b : Diagram n) : Diagram n :=
  if vars.isEmpty then a.and b else (a.and b).exist vars

/-- The variables on the path of high branches: those that a diagram used as a set of variables
stands for. -/
def highVars (a : Diagram n) : List Nat := a.tree.highPath

def isConst (a : Diagram n) (b : Bool) : Bool := a = const b

def isFalse (a : Diagram n) : Bool := a.isConst false

def isTrue (a : Diagram n) : Bool := a.isConst true

/-- Every assignment that satisfies `a` satisfies `b`. -/
def implies (a b : Diagram n) : Bool := (a.diff b).isFalse

/-- The variables that a function depends on, in increasing order. -/
def support (a : Diagram n) : List Nat := (Tree.Shared.support a.tree).val

/-- The number of assignments of all `n` variables that satisfy a function. -/
def satCount (a : Diagram n) : Nat := (Tree.Shared.count n 0 a.tree).val

/-- The variable with a given number, which must be one of the `n`. -/
def checkVar (n : Nat) (i : Int) : Except Misuse (Fin n) :=
  if h : 0 ≤ i ∧ i < n then .ok ⟨i.toNat, by omega⟩ else .error (.variableOutOfRange i n)

@[simp] theorem checkVar_val (v : Fin n) : checkVar n v.val = .ok v := by
  have hv : 0 ≤ (v.val : Int) ∧ (v.val : Int) < n := by omega
  rw [checkVar, dif_pos hv]
  rfl

structure Literal where
  var : Int
  positive : Bool
deriving DecidableEq, Repr

def cube (lits : List Literal) : Except Misuse (Diagram n) :=
  lits.foldlM (fun acc lit => do
    let i ← checkVar n lit.var
    return acc.and (literal i lit.positive)) (const true)

/-- The conjunction of variables, which stands for the set of them. -/
def varSet (vars : List Int) : Except Misuse (Diagram n) :=
  cube (vars.map fun v => ⟨v, true⟩)

/-- A replacement of variables by variables. -/
structure Renaming (n : Nat) where
  image : Nat → Nat
  bounded : ∀ v, v < n → image v < n

/-- The function read with other variables. -/
def relabel (r : Renaming n) (a : Diagram n) : Diagram n :=
  ofTree (Tree.Shared.relabel r.image a.tree) (a.reduced.relabel r.bounded)

/-- Replaces variables. Fails where two tests on a path would get the same variable. -/
def rename (r : Renaming n) (a : Diagram n) : Except Misuse (Diagram n) :=
  match h : (Tree.Shared.rename r.image a.tree).val with
  | some t => .ok ⟨t,
      a.reduced.rename r.bounded ((Tree.Shared.rename r.image a.tree).property.symm.trans h)⟩
  | none => .error .renameClash

theorem tree_not (a : Diagram n) : a.not.tree = a.tree.neg := tree_ofTree _ _

theorem tree_combine (f : Bool → Bool → Bool) (a b : Diagram n) :
    (combine f a b).tree = Tree.combine f a.tree b.tree := tree_ofTree _ _

theorem tree_select (i : Fin n) (l h : Diagram n) :
    (select i l h).tree = Tree.select i l.tree h.tree := tree_ofTree _ _

theorem tree_exist (vars : List Nat) (a : Diagram n) :
    (a.exist vars).tree = a.tree.exist vars.contains := tree_ofTree _ _

theorem tree_relabel (r : Renaming n) (a : Diagram n) :
    (a.relabel r).tree = a.tree.relabel r.image := tree_ofTree _ _

theorem support_eq (a : Diagram n) : a.support = a.tree.support :=
  (Tree.Shared.support a.tree).property

theorem satCount_eq (a : Diagram n) : a.satCount = a.tree.count n 0 :=
  (Tree.Shared.count n 0 a.tree).property

@[simp] theorem eval_const (b : Bool) (ρ : Nat → Bool) : (const b : Diagram n).eval ρ = b := rfl

@[simp] theorem eval_literal (i : Fin n) (b : Bool) (ρ : Nat → Bool) :
    (literal i b).eval ρ = (ρ i == b) := by
  cases h : ρ i <;> cases b <;> simp [literal, eval, h]

@[simp] theorem eval_var (i : Fin n) (ρ : Nat → Bool) : (var i).eval ρ = ρ i := by simp [var]

@[simp] theorem eval_not (a : Diagram n) (ρ : Nat → Bool) : a.not.eval ρ = !a.eval ρ := by
  rw [eval, tree_not, Tree.eval_neg, eval]

@[simp] theorem eval_combine (f : Bool → Bool → Bool) (a b : Diagram n) (ρ : Nat → Bool) :
    (combine f a b).eval ρ = f (a.eval ρ) (b.eval ρ) := by
  rw [eval, tree_combine, Tree.eval_combine, eval, eval]

@[simp] theorem eval_and (a b : Diagram n) (ρ : Nat → Bool) :
    (a.and b).eval ρ = (a.eval ρ && b.eval ρ) := eval_combine _ a b ρ

@[simp] theorem eval_or (a b : Diagram n) (ρ : Nat → Bool) :
    (a.or b).eval ρ = (a.eval ρ || b.eval ρ) := eval_combine _ a b ρ

@[simp] theorem eval_xor (a b : Diagram n) (ρ : Nat → Bool) :
    (a.xor b).eval ρ = (a.eval ρ != b.eval ρ) := eval_combine _ a b ρ

@[simp] theorem eval_imp (a b : Diagram n) (ρ : Nat → Bool) :
    (a.imp b).eval ρ = (!a.eval ρ || b.eval ρ) := eval_combine _ a b ρ

@[simp] theorem eval_iff (a b : Diagram n) (ρ : Nat → Bool) :
    (a.iff b).eval ρ = (a.eval ρ == b.eval ρ) := eval_combine _ a b ρ

@[simp] theorem eval_diff (a b : Diagram n) (ρ : Nat → Bool) :
    (a.diff b).eval ρ = (a.eval ρ && !b.eval ρ) := eval_combine _ a b ρ

@[simp] theorem eval_select (i : Fin n) (l h : Diagram n) (ρ : Nat → Bool) :
    (select i l h).eval ρ = if ρ i then h.eval ρ else l.eval ρ := by
  rw [eval, tree_select, Tree.eval_select, eval, eval]

@[simp] theorem eval_relabel (r : Renaming n) (a : Diagram n) (ρ : Nat → Bool) :
    (a.relabel r).eval ρ = a.eval fun v => ρ (r.image v) := by
  rw [eval, tree_relabel, Tree.eval_relabel, eval]

theorem eval_rename {r : Renaming n} {a b : Diagram n} (h : a.rename r = .ok b)
    (ρ : Nat → Bool) : b.eval ρ = a.eval fun v => ρ (r.image v) := by
  unfold rename at h
  split at h
  · next t ht =>
    cases h
    exact Tree.eval_rename ρ r.image ((Tree.Shared.rename r.image a.tree).property.symm.trans ht)
  · cases h

@[simp] theorem isConst_iff (a : Diagram n) (b : Bool) : a.isConst b = true ↔ a = const b := by
  simp [isConst]

/-- A function is not constantly `!b` exactly when it is `b` somewhere. -/
theorem ne_const_iff (a : Diagram n) (b : Bool) : a ≠ const (!b) ↔ ∃ ρ, a.eval ρ = b := by
  constructor
  · intro h
    exact Tree.exists_eval_eq a.reduced fun e => h (by cases a; simp_all [const])
  · rintro ⟨ρ, h⟩ rfl
    cases b <;> simp at h

end Diagram
end SymbolicLtl
