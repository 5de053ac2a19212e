/-!
Decision trees over numbered Boolean variables. A tree tests a variable at each node; in a reduced
ordered tree the variables grow from the root to the leaves and no test is idle, so that each
Boolean function has exactly one such tree.
-/
namespace SymbolicLtl

def mixWords (a b : UInt64) : UInt64 := (a ^^^ (b >>> 29)) * 0x9e3779b97f4a7c15 + b

/-- A decision tree: a constant, or a test of a variable. Each tree carries its fingerprint and its
weight, so that they are known without a walk through it. -/
inductive Tree where
  | leaf (value : Bool)
  | node (var : Nat) (low high : Tree)
with
  /-- A word that tells most trees apart. -/
  @[computed_field] fingerprint : Tree → UInt64
    | .leaf b => if b then 7 else 5
    | .node v l h => mixWords (mixWords v.toUInt64 l.fingerprint) h.fingerprint
  /-- The number of constants and tests, or 5000 if it is larger. -/
  @[computed_field] weight : Tree → Nat
    | .leaf _ => 1
    | .node _ l h => if l.weight + h.weight < 4999 then l.weight + h.weight + 1 else 5000
deriving Repr

namespace Tree

/-- Compares trees; trees that are one object are equal at once. -/
def decideEq (a b : Tree) : Decidable (a = b) :=
  withPtrEqDecEq a b fun _ =>
    match a, b with
    | leaf x, leaf y => if h : x = y then .isTrue (by rw [h]) else .isFalse (by simp [h])
    | leaf _, node .. => .isFalse nofun
    | node .., leaf _ => .isFalse nofun
    | node v l h, node w l' h' =>
      if hv : v = w then
        match decideEq l l' with
        | .isTrue hl => match decideEq h h' with
          | .isTrue hh => .isTrue (by rw [hv, hl, hh])
          | .isFalse hh => .isFalse (by simp [hh])
        | .isFalse hl => .isFalse (by simp [hl])
      else .isFalse (by simp [hv])

theorem ne_of_fingerprint_ne {a b : Tree} (h : a.fingerprint ≠ b.fingerprint) : a ≠ b :=
  fun e => h (congrArg fingerprint e)

/-- Fingerprints are compared first. -/
instance : DecidableEq Tree := fun a b =>
  if h : a.fingerprint = b.fingerprint then decideEq a b else .isFalse (ne_of_fingerprint_ne h)

instance : Hashable Tree := ⟨fingerprint⟩

def eval (ρ : Nat → Bool) : Tree → Bool
  | leaf b => b
  | node v l h => if ρ v then h.eval ρ else l.eval ρ

/-- Reduced and ordered, with all variables in `[k, n)`. -/
def Reduced (k n : Nat) : Tree → Prop
  | leaf _ => True
  | node v l h => k ≤ v ∧ v < n ∧ l ≠ h ∧ l.Reduced (v + 1) n ∧ h.Reduced (v + 1) n

/-- Tests `v` unless the test would be idle. -/
def branch (v : Nat) (l h : Tree) : Tree := if l = h then l else node v l h

def neg : Tree → Tree
  | leaf b => leaf (!b)
  | node v l h => node v l.neg h.neg

def lift (f : Bool → Bool) (t : Tree) : Tree :=
  match f false, f true with
  | false, true => t
  | true, false => t.neg
  | b, _ => leaf b

/-- Combines a tree that tests `v` first with a second one. The functions give the combination of
the whole first tree with a constant, and of its two subtrees with any tree. -/
def merge (v : Nat) (constant : Bool → Tree) (low high : Tree → Tree) : Tree → Tree
  | leaf b => constant b
  | node w l h =>
    if v < w then branch v (low (node w l h)) (high (node w l h))
    else if w < v then
      branch w (merge v constant low high l) (merge v constant low high h)
    else branch v (low l) (high h)

def combine (f : Bool → Bool → Bool) : Tree → Tree → Tree
  | leaf a => lift (f a)
  | node v l h =>
    merge v (fun b => lift (fun a => f a b) (node v l h)) (combine f l) (combine f h)

def or (a b : Tree) : Tree := combine (· || ·) a b

def and (a b : Tree) : Tree := combine (· && ·) a b

/-- The variable occurs in an ordered tree. -/
def mentions (v : Nat) : Tree → Bool
  | leaf _ => false
  | node w l h => w == v || (w < v && (l.mentions v || h.mentions v))

/-- All variables of an ordered tree are larger than `v`. -/
def isBelow (v : Nat) : Tree → Bool
  | leaf _ => true
  | node w _ _ => v < w

def select (v : Nat) (l h : Tree) : Tree :=
  if l.isBelow v && h.isBelow v then branch v l h
  else or (and (node v (leaf true) (leaf false)) l) (and (node v (leaf false) (leaf true)) h)

/-- Removes the chosen variables by existential quantification. -/
def exist (chosen : Nat → Bool) : Tree → Tree
  | leaf b => leaf b
  | node v l h =>
    if chosen v then or (l.exist chosen) (h.exist chosen)
    else branch v (l.exist chosen) (h.exist chosen)

/-- Replaces every variable by its image, from the leaves to the root. Fails where a test would get
the variable of a test below it. -/
def rename (image : Nat → Nat) : Tree → Option Tree
  | leaf b => some (leaf b)
  | node v l h => do
    let l ← l.rename image
    let h ← h.rename image
    if l.mentions (image v) || h.mentions (image v) then none
    else some (select (image v) l h)

def relabel (image : Nat → Nat) : Tree → Tree
  | leaf b => leaf b
  | node v l h => select (image v) (l.relabel image) (h.relabel image)

/-- The number of assignments of the variables in `[k, n)` that satisfy a tree. -/
def count (n : Nat) (k : Nat) : Tree → Nat
  | leaf false => 0
  | leaf true => Nat.pow 2 (n - k)
  | node v l h => Nat.pow 2 (v - k) * (l.count n (v + 1) + h.count n (v + 1))

/-- The union of two increasing lists. -/
def union : List Nat → List Nat → List Nat
  | [], ys => ys
  | x :: xs, ys => go x (union xs) ys
where
  /-- Merges `x`, and what `rest` merges with the remainder, into a list. -/
  go (x : Nat) (rest : List Nat → List Nat) : List Nat → List Nat
    | [] => x :: rest []
    | y :: ys =>
      if x < y then x :: rest (y :: ys) else if y < x then y :: go x rest ys else x :: rest ys

def support : Tree → List Nat
  | leaf _ => []
  | node v l h => v :: union l.support h.support

/-- The variables on the path that follows the high subtrees. -/
def highPath : Tree → List Nat
  | leaf _ => []
  | node v _ h => v :: h.highPath

@[simp] theorem eval_leaf (ρ : Nat → Bool) (b : Bool) : (leaf b).eval ρ = b := rfl

@[simp] theorem eval_node (ρ : Nat → Bool) (v : Nat) (l h : Tree) :
    (node v l h).eval ρ = if ρ v then h.eval ρ else l.eval ρ := rfl

@[simp] theorem eval_branch (ρ : Nat → Bool) (v : Nat) (l h : Tree) :
    (branch v l h).eval ρ = if ρ v then h.eval ρ else l.eval ρ := by
  unfold branch
  split
  · next e => simp [e]
  · rfl

@[simp] theorem eval_neg (ρ : Nat → Bool) (t : Tree) : t.neg.eval ρ = !t.eval ρ := by
  induction t with
  | leaf b => rfl
  | node v l h ihl ihh => simp only [neg, eval_node, ihl, ihh]; split <;> rfl

@[simp] theorem eval_lift (ρ : Nat → Bool) (f : Bool → Bool) (t : Tree) :
    (lift f t).eval ρ = f (t.eval ρ) := by
  unfold lift
  cases hf : f false <;> cases ht : f true <;> cases h : t.eval ρ <;> simp_all

theorem eval_merge (ρ : Nat → Bool) (f : Bool → Bool → Bool) (v : Nat) (l h : Tree)
    (constant : Bool → Tree) (low high : Tree → Tree)
    (hc : ∀ b, (constant b).eval ρ = f ((node v l h).eval ρ) b)
    (hl : ∀ t, (low t).eval ρ = f (l.eval ρ) (t.eval ρ))
    (hh : ∀ t, (high t).eval ρ = f (h.eval ρ) (t.eval ρ)) (t : Tree) :
    (merge v constant low high t).eval ρ = f ((node v l h).eval ρ) (t.eval ρ) := by
  induction t with
  | leaf b => exact hc b
  | node w l' h' ihl ihh =>
    unfold merge
    split
    · simp only [eval_branch, hl, hh, eval_node]; split <;> rfl
    · split
      · simp only [eval_branch, ihl, ihh, eval_node]; split <;> rfl
      · have : v = w := by omega
        subst this
        simp only [eval_branch, hl, hh, eval_node]; split <;> rfl

@[simp] theorem eval_combine (ρ : Nat → Bool) (f : Bool → Bool → Bool) (a b : Tree) :
    (combine f a b).eval ρ = f (a.eval ρ) (b.eval ρ) := by
  induction a generalizing b with
  | leaf a => simp [combine]
  | node v l h ihl ihh =>
    exact eval_merge ρ f v l h _ _ _ (fun b => by simp) ihl ihh b

@[simp] theorem eval_or (ρ : Nat → Bool) (a b : Tree) :
    (or a b).eval ρ = (a.eval ρ || b.eval ρ) := eval_combine ρ _ a b

@[simp] theorem eval_and (ρ : Nat → Bool) (a b : Tree) :
    (and a b).eval ρ = (a.eval ρ && b.eval ρ) := eval_combine ρ _ a b

@[simp] theorem eval_select (ρ : Nat → Bool) (v : Nat) (l h : Tree) :
    (select v l h).eval ρ = if ρ v then h.eval ρ else l.eval ρ := by
  unfold select
  split
  · simp
  · cases hv : ρ v <;> simp [hv]

@[simp] theorem eval_relabel (ρ : Nat → Bool) (image : Nat → Nat) (t : Tree) :
    (t.relabel image).eval ρ = t.eval fun v => ρ (image v) := by
  induction t with
  | leaf b => rfl
  | node v l h ihl ihh => simp [relabel, ihl, ihh]

theorem eval_rename (ρ : Nat → Bool) (image : Nat → Nat) {t t' : Tree}
    (ht : t.rename image = some t') : t'.eval ρ = t.eval (fun v => ρ (image v)) := by
  induction t generalizing t' with
  | leaf b => cases ht; rfl
  | node v l h ihl ihh =>
    simp only [rename, Option.bind_eq_bind] at ht
    obtain ⟨l', hl, ht⟩ := Option.bind_eq_some_iff.mp ht
    obtain ⟨h', hh, ht⟩ := Option.bind_eq_some_iff.mp ht
    split at ht
    · cases ht
    · cases ht
      simp [ihl hl, ihh hh]

theorem Reduced.mono {j k n : Nat} (hjk : j ≤ k) {t : Tree} (ht : t.Reduced k n) :
    t.Reduced j n := by
  cases t with
  | leaf b => trivial
  | node v l h => exact ⟨Nat.le_trans hjk ht.1, ht.2⟩

theorem Reduced.widen {k m n : Nat} (hmn : m ≤ n) {t : Tree} (ht : t.Reduced k m) :
    t.Reduced k n := by
  induction t generalizing k with
  | leaf b => trivial
  | node v l h ihl ihh =>
    exact ⟨ht.1, Nat.lt_of_lt_of_le ht.2.1 hmn, ht.2.2.1, ihl ht.2.2.2.1, ihh ht.2.2.2.2⟩

theorem reduced_branch {k n v : Nat} {l h : Tree} (hk : k ≤ v) (hn : v < n)
    (hl : l.Reduced (v + 1) n) (hh : h.Reduced (v + 1) n) : (branch v l h).Reduced k n := by
  unfold branch
  split
  · exact hl.mono (by omega)
  · next hne => exact ⟨hk, hn, hne, hl, hh⟩

theorem neg_neg (t : Tree) : t.neg.neg = t := by
  induction t with
  | leaf b => simp [neg]
  | node v l h ihl ihh => simp [neg, ihl, ihh]

theorem Reduced.neg {k n : Nat} {t : Tree} (ht : t.Reduced k n) : t.neg.Reduced k n := by
  induction t generalizing k with
  | leaf b => trivial
  | node v l h ihl ihh =>
    refine ⟨ht.1, ht.2.1, fun e => ht.2.2.1 ?_, ihl ht.2.2.2.1, ihh ht.2.2.2.2⟩
    rw [← neg_neg l, e, neg_neg]

theorem Reduced.lift {k n : Nat} (f : Bool → Bool) {t : Tree} (ht : t.Reduced k n) :
    (t.lift f).Reduced k n := by
  unfold Tree.lift
  split
  · exact ht
  · exact ht.neg
  · trivial

theorem reduced_merge {v n k : Nat} {constant : Bool → Tree} {low high : Tree → Tree}
    (hk : k ≤ v) (hn : v < n) (hc : ∀ b, (constant b).Reduced k n)
    (hl : ∀ t : Tree, t.Reduced (v + 1) n → (low t).Reduced (v + 1) n)
    (hh : ∀ t : Tree, t.Reduced (v + 1) n → (high t).Reduced (v + 1) n)
    (hc' : ∀ j, j ≤ v → ∀ b, (constant b).Reduced j n)
    {t : Tree} (ht : t.Reduced k n) : (merge v constant low high t).Reduced k n := by
  induction t generalizing k with
  | leaf b => exact hc b
  | node w l h ihl ihh =>
    obtain ⟨hkw, hwn, hne, hwl, hwh⟩ := ht
    unfold merge
    split
    · next hvw =>
      have hr : (node w l h).Reduced (v + 1) n := ⟨by omega, hwn, hne, hwl, hwh⟩
      exact reduced_branch hk hn (hl _ hr) (hh _ hr)
    · split
      · next hwv =>
        have hj : w + 1 ≤ v := by omega
        exact reduced_branch hkw hwn (ihl hj (hc' _ hj) hwl) (ihh hj (hc' _ hj) hwh)
      · have : v = w := by omega
        subst this
        exact reduced_branch hk hn (hl _ hwl) (hh _ hwh)

theorem Reduced.combine {k n : Nat} (f : Bool → Bool → Bool) {a b : Tree} (ha : a.Reduced k n)
    (hb : b.Reduced k n) : (combine f a b).Reduced k n := by
  induction a generalizing k b with
  | leaf a => exact hb.lift _
  | node v l h ihl ihh =>
    obtain ⟨hkv, hvn, hne, hl, hh⟩ := ha
    have hc : ∀ j, j ≤ v → ∀ b, ((node v l h).lift fun a => f a b).Reduced j n := fun j hj b =>
      Reduced.lift _ ⟨hj, hvn, hne, hl, hh⟩
    exact reduced_merge hkv hvn (hc k hkv) (fun _ ht => ihl hl ht) (fun _ ht => ihh hh ht) hc hb

theorem reduced_variable {k n v : Nat} (hk : k ≤ v) (hn : v < n) (b : Bool) :
    (node v (leaf !b) (leaf b)).Reduced k n := by
  cases b <;> exact ⟨hk, hn, by simp, trivial, trivial⟩

theorem reduced_of_isBelow {k n v : Nat} {t : Tree} (ht : t.Reduced k n) (h : t.isBelow v) :
    t.Reduced (v + 1) n := by
  cases t with
  | leaf b => trivial
  | node w l h' => exact ⟨Nat.succ_le_of_lt (by simpa [isBelow] using h), ht.2⟩

theorem Reduced.select {k n v : Nat} {l h : Tree} (hk : k ≤ v) (hn : v < n)
    (hl : l.Reduced k n) (hh : h.Reduced k n) : (select v l h).Reduced k n := by
  unfold Tree.select
  split
  · next hb =>
    simp only [Bool.and_eq_true] at hb
    exact reduced_branch hk hn (reduced_of_isBelow hl hb.1) (reduced_of_isBelow hh hb.2)
  · exact ((reduced_variable hk hn false).combine _ hl).combine _
      ((reduced_variable hk hn true).combine _ hh)

theorem Reduced.exist {k n : Nat} (chosen : Nat → Bool) {t : Tree} (ht : t.Reduced k n) :
    (t.exist chosen).Reduced k n := by
  induction t generalizing k with
  | leaf b => trivial
  | node v l h ihl ihh =>
    obtain ⟨hkv, hvn, _, hl, hh⟩ := ht
    unfold Tree.exist
    split
    · exact ((ihl hl).combine _ (ihh hh)).mono (by omega)
    · exact reduced_branch hkv hvn (ihl hl) (ihh hh)

theorem Reduced.relabel {k m n : Nat} {image : Nat → Nat} (hi : ∀ v, v < m → image v < n)
    {t : Tree} (ht : t.Reduced k m) : (t.relabel image).Reduced 0 n := by
  induction t generalizing k with
  | leaf b => trivial
  | node v l r ihl ihr =>
    obtain ⟨_, hvm, _, hl, hr⟩ := ht
    exact Reduced.select (Nat.zero_le _) (hi v hvm) (ihl hl) (ihr hr)

theorem Reduced.rename {k m n : Nat} {image : Nat → Nat} (hi : ∀ v, v < m → image v < n)
    {t t' : Tree} (ht : t.Reduced k m) (h : t.rename image = some t') : t'.Reduced 0 n := by
  induction t generalizing k t' with
  | leaf b => cases h; trivial
  | node v l r ihl ihr =>
    obtain ⟨_, hvm, _, hl, hr⟩ := ht
    simp only [Tree.rename, Option.bind_eq_bind] at h
    obtain ⟨l', hl', h⟩ := Option.bind_eq_some_iff.mp h
    obtain ⟨r', hr', h⟩ := Option.bind_eq_some_iff.mp h
    split at h
    · cases h
    · cases h
      exact Reduced.select (Nat.zero_le _) (hi v hvm) (ihl hl hl') (ihr hr hr')

/-- An assignment changed at one variable. -/
def update (ρ : Nat → Bool) (v : Nat) (b : Bool) : Nat → Bool := fun w => if w = v then b else ρ w

/-- A reduced tree does not see variables below its range. -/
theorem eval_congr {k n : Nat} {t : Tree} (ht : t.Reduced k n) {ρ σ : Nat → Bool}
    (h : ∀ v, k ≤ v → v < n → ρ v = σ v) : t.eval ρ = t.eval σ := by
  induction t generalizing k with
  | leaf b => rfl
  | node v l r ihl ihr =>
    obtain ⟨hkv, hvn, _, hl, hr⟩ := ht
    rw [eval_node, eval_node, h v hkv hvn, ihl hl fun w hw hn => h w (by omega) hn,
      ihr hr fun w hw hn => h w (by omega) hn]

theorem eval_update {k n v : Nat} {t : Tree} (ht : t.Reduced k n) (hv : v < k) (ρ : Nat → Bool)
    (b : Bool) : t.eval (update ρ v b) = t.eval ρ :=
  eval_congr ht fun w hw _ => by simp [update, show w ≠ v by omega]

/-- The subtree for a value of `k`, of a tree whose variables are not smaller than `k`. -/
def cofactor (k : Nat) (b : Bool) : Tree → Tree
  | leaf x => leaf x
  | node v l h => if v = k then if b then h else l else node v l h

theorem Reduced.cofactor {k n : Nat} {t : Tree} (ht : t.Reduced k n) (b : Bool) :
    (t.cofactor k b).Reduced (k + 1) n := by
  cases t with
  | leaf x => trivial
  | node v l h =>
    obtain ⟨hkv, hvn, hne, hl, hh⟩ := ht
    simp only [Tree.cofactor]
    split
    · next e => subst e; cases b <;> assumption
    · exact ⟨by omega, hvn, hne, hl, hh⟩

theorem eval_cofactor {k n : Nat} {t : Tree} (ht : t.Reduced k n) (ρ : Nat → Bool) (b : Bool) :
    (t.cofactor k b).eval ρ = t.eval (update ρ k b) := by
  rw [← eval_update (ht.cofactor b) (Nat.lt_succ_self k) ρ b]
  cases t with
  | leaf x => rfl
  | node v l h =>
    simp only [Tree.cofactor]
    split
    · next e => subst e; cases b <;> simp [update]
    · rfl

theorem branch_cofactor {k n : Nat} {t : Tree} (ht : t.Reduced k n) :
    branch k (t.cofactor k false) (t.cofactor k true) = t := by
  cases t with
  | leaf x => simp [branch, cofactor]
  | node v l h =>
    simp only [cofactor]
    split
    · next e => subst e; simp [branch, ht.2.2.1]
    · simp [branch]

/-- Reduced trees with the same values are the same tree. -/
theorem eq_of_eval_eq {k n : Nat} {a b : Tree} (ha : a.Reduced k n) (hb : b.Reduced k n)
    (h : ∀ ρ, a.eval ρ = b.eval ρ) : a = b := by
  by_cases hk : k < n
  · have e : ∀ c, a.cofactor k c = b.cofactor k c := fun c =>
      eq_of_eval_eq (ha.cofactor c) (hb.cofactor c) fun ρ => by
        rw [eval_cofactor ha, eval_cofactor hb, h]
    rw [← branch_cofactor ha, ← branch_cofactor hb, e, e]
  · cases a with
    | node v l r => have := ha.1; have := ha.2.1; omega
    | leaf x =>
      cases b with
      | node v l r => have := hb.1; have := hb.2.1; omega
      | leaf y => rw [show x = y from h fun _ => false]
termination_by n - k

/-- A reduced tree other than a constant takes the opposite value somewhere. -/
theorem exists_eval_eq {k n : Nat} {t : Tree} (ht : t.Reduced k n) {b : Bool}
    (h : t ≠ leaf (!b)) : ∃ ρ, t.eval ρ = b := by
  refine Classical.byContradiction fun hno => h (eq_of_eval_eq ht (b := leaf (!b)) trivial ?_)
  intro ρ
  have := fun he => hno ⟨ρ, he⟩
  cases b <;> simpa using this

end Tree
end SymbolicLtl
