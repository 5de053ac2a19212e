/-! Families: one value for each index below a bound, each computed once. -/
namespace SymbolicLtl

/-- A value for each of `k` indexes. -/
structure Family (k : Nat) (α : Type) where
  values : Vector α k
deriving DecidableEq

namespace Family

variable {k : Nat} {α β : Type}

def get (v : Family k α) (q : Fin k) : α := v.values.get q

instance : CoeFun (Family k α) fun _ => Fin k → α := ⟨get⟩

def ofFn (f : Fin k → α) : Family k α := ⟨.ofFn f⟩

@[simp] theorem get_ofFn (f : Fin k → α) (q : Fin k) : ofFn f q = f q := by
  change (Vector.ofFn f)[q.val] = f q
  simp

@[ext] theorem ext {v w : Family k α} (h : ∀ q, v q = w q) : v = w := by
  obtain ⟨v⟩ := v
  obtain ⟨w⟩ := w
  exact congrArg mk (Vector.ext fun q hq => h ⟨q, hq⟩)

def toList (v : Family k α) : List α := v.values.toList

theorem toList_eq (v : Family k α) : v.toList = (List.finRange k).map v := by
  refine List.ext_getElem (by simp [toList]) fun q hq _ => ?_
  simp [toList]
  rfl

/-- The values of a list. -/
def ofList (values : List α) : Family values.length α := ⟨⟨values.toArray, by simp⟩⟩

def replicate (k : Nat) (x : α) : Family k α := ofFn fun _ => x

@[simp] theorem get_replicate (x : α) (q : Fin k) : replicate k x q = x := get_ofFn _ q

def map (f : α → β) (v : Family k α) : Family k β := ofFn fun q => f (v q)

@[simp] theorem get_map (f : α → β) (v : Family k α) (q : Fin k) : v.map f q = f (v q) :=
  get_ofFn _ q

def set (v : Family k α) (i : Fin k) (x : α) : Family k α := ⟨v.values.set i.val x i.isLt⟩

theorem get_set (v : Family k α) (i q : Fin k) (x : α) :
    v.set i x q = if q = i then x else v q := by
  change (v.values.set i.val x i.isLt)[q.val] = _
  rw [Vector.getElem_set]
  by_cases h : q = i
  · simp [h]
  · rw [if_neg fun e => h (Fin.ext e.symm), if_neg h]
    rfl

/-- The values of a function in the order of their indexes, up to the first failure. -/
def collect {ε : Type} : (k : Nat) → (Fin k → Except ε α) → Except ε (Family k α)
  | 0, _ => .ok ⟨#v[]⟩
  | k + 1, f => do
    let xs ← collect k fun i => f i.castSucc
    return ⟨xs.values.push (← f (Fin.last k))⟩

/-- A function is collected when it never fails. -/
theorem collect_eq_ok_iff {ε : Type} {f : Fin k → Except ε α} {v : Family k α} :
    collect k f = .ok v ↔ ∀ i, f i = .ok (v i) := by
  induction k with
  | zero =>
    obtain ⟨v⟩ := v
    simp [collect, Vector.eq_empty]
  | succ k ih =>
    constructor
    · intro h i
      cases hc : collect k fun i => f i.castSucc with
      | error e => simp [collect, hc, bind, Except.bind] at h
      | ok xs =>
        cases hl : f (Fin.last k) with
        | error e => simp [collect, hc, hl, bind, Except.bind] at h
        | ok x =>
          simp [collect, hc, hl, bind, Except.bind, pure, Except.pure] at h
          subst h
          change f i = .ok (xs.values.push x)[i.val]
          rw [Vector.getElem_push]
          split
          · next hi => exact ih.mp hc ⟨i, hi⟩
          · have : i = Fin.last k := Fin.ext (by have := i.isLt; simp; omega)
            rw [this, hl]
    · intro h
      have hc : collect k (fun i => f i.castSucc) = .ok ⟨v.values.pop⟩ :=
        ih.mpr fun i => by
          rw [h i.castSucc]
          change Except.ok v.values[i.val] = .ok v.values.pop[i.val]
          simp
      simp [collect, hc, h (Fin.last k), bind, Except.bind, pure, Except.pure]
      refine ext fun q => ?_
      change (v.values.pop.push v.values[k])[q.val] = v.values[q.val]
      rw [Vector.getElem_push]
      split
      · simp
      · have : q.val = k := by omega
        simp [this]

end Family
end SymbolicLtl
