import SymbolicLtl.Diagram.Tree
import SymbolicLtl.Memo

/-!
Trees whose equal subtrees are one object. Large trees are combined with a cache, which remembers
each node that was made and each result, so that work is done once for every pair of different
subtrees. Every function here comes with the proof that it computes the plain one of the same name.
-/
namespace SymbolicLtl

/-- A Boolean function of two arguments, by its values. -/
structure Gate where
  atFalseFalse : Bool
  atFalseTrue : Bool
  atTrueFalse : Bool
  atTrueTrue : Bool
deriving DecidableEq, Hashable, Repr

namespace Gate

def ofFn (f : Bool → Bool → Bool) : Gate :=
  ⟨f false false, f false true, f true false, f true true⟩

def apply (g : Gate) : Bool → Bool → Bool
  | false, false => g.atFalseFalse
  | false, true => g.atFalseTrue
  | true, false => g.atTrueFalse
  | true, true => g.atTrueTrue

@[simp] theorem apply_ofFn (f : Bool → Bool → Bool) : (ofFn f).apply = f := by
  funext a b
  cases a <;> cases b <;> rfl

end Gate

namespace Tree

/-- A function that is computed from the leaves to the root, once for each subtree. -/
def foldMemo {β σ : Type} {f : Tree → β} (atLeaf : ∀ b, Exactly (f (leaf b)))
    (atNode : ∀ v l h, Exactly (f l) → Exactly (f h) → σ → Exactly (f (node v l h)) × σ)
    (t : Tree) (m : Memo f) (s : σ) : Exactly (f t) × Memo f × σ :=
  match ht : t with
  | leaf b => (atLeaf b, m, s)
  | node v l h =>
    match m.find? t with
    | some y => (⟨y.val, ht ▸ y.property⟩, m, s)
    | none =>
      let (y, m, s) := foldMemo atLeaf atNode l m s
      let (z, m, s) := foldMemo atLeaf atNode h m s
      let (r, s) := atNode v l h y z s
      (r, m.insert t ⟨r.val, ht ▸ r.property⟩, s)

/-- One object for each tree that was made. -/
abbrev Objects := Memo (id : Tree → Tree)

namespace Objects

/-- The object for a test of `v`. -/
def node (v : Nat) (l h : Tree) (c : Objects) : Exactly (Tree.node v l h) × Objects :=
  let t := Tree.node v l h
  match c.find? t with
  | some y => (y, c)
  | none => (⟨t, rfl⟩, c.insert t ⟨t, rfl⟩)

def branch (v : Nat) (l h : Tree) (c : Objects) : Exactly (Tree.branch v l h) × Objects :=
  if e : l = h then (⟨l, by simp [Tree.branch, e]⟩, c)
  else
    let (y, c) := node v l h c
    (⟨y.val, by simp [Tree.branch, e, y.property]⟩, c)

/-- The object for a tree. -/
def share (t : Tree) (c : Objects) : Exactly t × Objects :=
  let (y, _, c) := foldMemo (f := id) (fun b => ⟨leaf b, rfl⟩)
    (fun v _ _ l h c =>
      let (y, c) := node v l.val h.val c
      (⟨y.val, by rw [y.property, l.property, h.property]; rfl⟩, c)) t .empty c
  (y, c)

end Objects

/-- What has been computed about some trees. -/
structure Cache where
  objects : Objects
  negations : Memo neg
  combinations : Memo fun p : Gate × Tree × Tree => combine p.1.apply p.2.1 p.2.2

namespace Cache

def ofObjects (objects : Objects) : Cache := ⟨objects, .empty, .empty⟩

def branch (v : Nat) (l h : Tree) (c : Cache) : Exactly (Tree.branch v l h) × Cache :=
  let (y, objects) := c.objects.branch v l h
  (y, { c with objects })

def neg (t : Tree) (c : Cache) : Exactly t.neg × Cache :=
  let (y, negations, objects) := foldMemo (f := Tree.neg) (fun b => ⟨leaf (!b), rfl⟩)
    (fun v _ _ l h c =>
      let (y, c) := Objects.node v l.val h.val c
      (⟨y.val, by rw [y.property, l.property, h.property]; rfl⟩, c)) t c.negations c.objects
  (y, { c with objects, negations })

def lift (f : Bool → Bool) (t : Tree) (c : Cache) : Exactly (t.lift f) × Cache :=
  match hf : f false, ht : f true with
  | false, true => (⟨t, by simp [Tree.lift, hf, ht]⟩, c)
  | true, false =>
    let (y, c) := c.neg t
    (⟨y.val, by simp [Tree.lift, hf, ht, y.property]⟩, c)
  | true, true => (⟨leaf true, by simp [Tree.lift, hf, ht]⟩, c)
  | false, false => (⟨leaf false, by simp [Tree.lift, hf, ht]⟩, c)

theorem combine_node_node (f : Bool → Bool → Bool) (v w : Nat) (l h l' h' : Tree) :
    Tree.combine f (node v l h) (node w l' h') =
      if v < w then
        Tree.branch v (Tree.combine f l (node w l' h')) (Tree.combine f h (node w l' h'))
      else if w < v then
        Tree.branch w (Tree.combine f (node v l h) l') (Tree.combine f (node v l h) h')
      else Tree.branch v (Tree.combine f l l') (Tree.combine f h h') := rfl

def combine (g : Gate) (a b : Tree) (c : Cache) : Exactly (Tree.combine g.apply a b) × Cache :=
  match ha : a with
  | leaf x => c.lift (g.apply x) b
  | node v l h =>
    match hb : b with
    | leaf y =>
      let (z, c) := c.lift (fun x => g.apply x y) a
      (⟨z.val, by rw [z.property, ha]; rfl⟩, c)
    | node w l' h' =>
      match c.combinations.find? (g, a, b) with
      | some z => (⟨z.val, by rw [z.property, ha, hb]⟩, c)
      | none =>
        let (z, c) : Exactly (Tree.combine g.apply (node v l h) (node w l' h')) × Cache :=
          if hv : v < w then
            let (low, c) := combine g l b c
            let (high, c) := combine g h b c
            let (z, c) := c.branch v low.val high.val
            (⟨z.val, by
              rw [z.property, low.property, high.property, hb, combine_node_node, if_pos hv]⟩, c)
          else if hw : w < v then
            let (low, c) := combine g a l' c
            let (high, c) := combine g a h' c
            let (z, c) := c.branch w low.val high.val
            (⟨z.val, by
              rw [z.property, low.property, high.property, ha, combine_node_node, if_neg hv,
                if_pos hw]⟩, c)
          else
            let (low, c) := combine g l l' c
            let (high, c) := combine g h h' c
            let (z, c) := c.branch v low.val high.val
            (⟨z.val, by
              rw [z.property, low.property, high.property, combine_node_node, if_neg hv,
                if_neg hw]⟩, c)
        (z, { c with combinations := c.combinations.insert (g, a, b) ⟨z.val, by
          rw [z.property, ha, hb]⟩ })
termination_by sizeOf a + sizeOf b

def select (v : Nat) (l h : Tree) (c : Cache) : Exactly (Tree.select v l h) × Cache :=
  if e : l.isBelow v && h.isBelow v then
    let (y, c) := c.branch v l h
    (⟨y.val, by rw [y.property, Tree.select, if_pos e]⟩, c)
  else
    let (low, c) := c.combine (.ofFn (· && ·)) (node v (leaf true) (leaf false)) l
    let (high, c) := c.combine (.ofFn (· && ·)) (node v (leaf false) (leaf true)) h
    let (y, c) := c.combine (.ofFn (· || ·)) low.val high.val
    (⟨y.val, by
      rw [y.property, low.property, high.property, Tree.select, if_neg e]
      simp only [Gate.apply_ofFn]
      rfl⟩, c)

def exist (chosen : Nat → Bool) (t : Tree) (c : Cache) : Exactly (t.exist chosen) × Cache :=
  let (y, _, c) := foldMemo (f := Tree.exist chosen) (fun b => ⟨leaf b, rfl⟩)
    (fun v _ _ l h c =>
      if e : chosen v then
        let (y, c) := c.combine (.ofFn (· || ·)) l.val h.val
        (⟨y.val, by
          rw [y.property, l.property, h.property, Gate.apply_ofFn, Tree.exist, if_pos e]; rfl⟩, c)
      else
        let (y, c) := c.branch v l.val h.val
        (⟨y.val, by rw [y.property, l.property, h.property, Tree.exist, if_neg e]⟩, c)) t .empty c
  (y, c)

def relabel (image : Nat → Nat) (t : Tree) (c : Cache) : Exactly (t.relabel image) × Cache :=
  let (y, _, c) := foldMemo (f := Tree.relabel image) (fun b => ⟨leaf b, rfl⟩)
    (fun v _ _ l h c =>
      let (y, c) := c.select (image v) l.val h.val
      (⟨y.val, by rw [y.property, l.property, h.property, Tree.relabel]⟩, c)) t .empty c
  (y, c)

end Cache

theorem mentions_of_isBelow {v : Nat} {t : Tree} (h : t.isBelow v) : t.mentions v = false := by
  cases t with
  | leaf b => rfl
  | node w l r =>
    have : v < w := by simpa [isBelow] using h
    simp [mentions, show w ≠ v by omega, show ¬ w < v by omega]

/-- The variable occurs in an ordered tree. -/
def mentionsMemo (v : Nat) (t : Tree) : Exactly (t.mentions v) :=
  if e : t.isBelow v then ⟨false, (mentions_of_isBelow e).symm⟩
  else
    (foldMemo (f := mentions v) (fun _ => ⟨false, rfl⟩)
      (fun w _ _ l h (_ : Unit) =>
        (⟨w == v || (w < v && (l.val || h.val)), by rw [l.property, h.property, mentions]⟩, ()))
      t .empty ()).1

def Cache.rename (image : Nat → Nat) (t : Tree) (c : Cache) : Exactly (t.rename image) × Cache :=
  let (y, _, c) := foldMemo (f := Tree.rename image) (fun b => ⟨some (leaf b), rfl⟩)
    (fun v _ _ l h c =>
      match hl : l.val, hh : h.val with
      | some x, some y =>
        if e : (mentionsMemo (image v) x).val || (mentionsMemo (image v) y).val then
          (⟨none, by
            rw [(mentionsMemo (image v) x).property, (mentionsMemo (image v) y).property] at e
            rw [Tree.rename, ← l.property, ← h.property, hl, hh]
            exact (if_pos e).symm⟩, c)
        else
          let (z, c) := c.select (image v) x y
          (⟨some z.val, by
            rw [(mentionsMemo (image v) x).property, (mentionsMemo (image v) y).property] at e
            rw [Tree.rename, ← l.property, ← h.property, hl, hh, z.property]
            exact (if_neg e).symm⟩, c)
      | none, _ => (⟨none, by simp [Tree.rename, ← l.property, hl]⟩, c)
      | _, none => (⟨none, by simp [Tree.rename, ← l.property, ← h.property, hh]⟩, c)) t .empty c
  (y, c)

/-- The variables of an ordered tree, in increasing order. -/
def supportMemo (t : Tree) : Exactly t.support :=
  (foldMemo (f := support) (fun _ => ⟨[], rfl⟩)
    (fun v _ _ l h (_ : Unit) =>
      (⟨v :: union l.val h.val, by rw [l.property, h.property, support]⟩, ()))
    t .empty ()).1

/-- The first variable that a tree can tell apart. -/
def level (n : Nat) : Tree → Nat
  | leaf _ => n
  | node v _ _ => v

/-- The number of assignments of the variables from the first test on that satisfy a tree. -/
def ownCount (n : Nat) : Tree → Nat
  | leaf false => 0
  | leaf true => 1
  | node v l h => l.count n (v + 1) + h.count n (v + 1)

/-- The number of assignments of the variables from `k` on is the number of those from the first test
on, doubled for each variable between. -/
theorem count_eq (n k : Nat) (t : Tree) :
    t.count n k = Nat.pow 2 (t.level n - k) * t.ownCount n := by
  cases t with
  | leaf b => cases b <;> simp [count, level, ownCount]
  | node v l h => rfl

def ownCountMemo (n : Nat) (t : Tree) : Exactly (t.ownCount n) :=
  (foldMemo (f := ownCount n) (fun b => match b with
      | false => ⟨0, rfl⟩
      | true => ⟨1, rfl⟩)
    (fun v l h l' h' (_ : Unit) =>
      (⟨Nat.pow 2 (l.level n - (v + 1)) * l'.val + Nat.pow 2 (h.level n - (v + 1)) * h'.val, by
        rw [l'.property, h'.property, ownCount, count_eq, count_eq]⟩, ()))
    t .empty ()).1

/-- The work on every pair of a subtree of `a` and one of `b` is small, so no cache is needed. -/
def areLight (a b : Tree) : Bool := a.weight * b.weight ≤ 4096

/-- Objects for the subtrees of two trees, where equal ones are one object. -/
def shareBoth (a b : Tree) : Exactly a × Exactly b × Cache :=
  let (x, objects) := Objects.share a .empty
  let (y, objects) := Objects.share b objects
  (x, y, .ofObjects objects)

namespace Shared

def decideEq (a b : Tree) : Decidable (a = b) :=
  if h : a.fingerprint = b.fingerprint then
    if areLight a b then Tree.decideEq a b
    else
      let (x, y, _) := shareBoth a b
      decidable_of_iff (x.val = y.val) (by rw [x.property, y.property])
  else .isFalse (ne_of_fingerprint_ne h)

def neg (t : Tree) : Exactly t.neg :=
  if areLight t t then ⟨t.neg, rfl⟩ else (Cache.neg t (.ofObjects .empty)).1

def combine (f : Bool → Bool → Bool) (a b : Tree) : Exactly (Tree.combine f a b) :=
  if areLight a b then ⟨Tree.combine f a b, rfl⟩
  else
    let (x, y, c) := shareBoth a b
    let z := (c.combine (.ofFn f) x.val y.val).1
    ⟨z.val, by rw [z.property, x.property, y.property, Gate.apply_ofFn]⟩

def select (v : Nat) (l h : Tree) : Exactly (Tree.select v l h) :=
  if areLight l h then ⟨Tree.select v l h, rfl⟩
  else
    let (x, y, c) := shareBoth l h
    let z := (c.select v x.val y.val).1
    ⟨z.val, by rw [z.property, x.property, y.property]⟩

def exist (chosen : Nat → Bool) (t : Tree) : Exactly (t.exist chosen) :=
  if areLight t t then ⟨t.exist chosen, rfl⟩ else (Cache.exist chosen t (.ofObjects .empty)).1

def relabel (image : Nat → Nat) (t : Tree) : Exactly (t.relabel image) :=
  if areLight t t then ⟨t.relabel image, rfl⟩ else (Cache.relabel image t (.ofObjects .empty)).1

def rename (image : Nat → Nat) (t : Tree) : Exactly (t.rename image) :=
  if areLight t t then ⟨t.rename image, rfl⟩ else (Cache.rename image t (.ofObjects .empty)).1

def support (t : Tree) : Exactly t.support :=
  if areLight t t then ⟨t.support, rfl⟩ else supportMemo t

def count (n k : Nat) (t : Tree) : Exactly (t.count n k) :=
  if areLight t t then ⟨t.count n k, rfl⟩
  else ⟨Nat.pow 2 (t.level n - k) * (ownCountMemo n t).val, by
    rw [(ownCountMemo n t).property, count_eq]⟩

end Shared
end Tree
end SymbolicLtl
