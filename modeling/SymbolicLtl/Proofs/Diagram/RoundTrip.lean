import Mathlib.Data.List.Induction
import SymbolicLtl.Proofs.Diagram.Numbering

/-!
Functions go through tables unchanged. From a table that lists trees, each behind its parts, building
gives every tree back at its place.
-/
namespace SymbolicLtl

variable {n : Nat}

theorem Diagram.tree_select_of_reduced {k : Nat} (v : Fin n) {a b : Diagram n}
    (h : (Tree.node v a.tree b.tree).Reduced k n) :
    (select v a b).tree = .node v a.tree b.tree := by
  have hnode : (Tree.node v a.tree b.tree).Reduced 0 n := h.mono (Nat.zero_le k)
  refine Tree.eq_of_eval_eq (select v a b).reduced hnode fun ρ => ?_
  exact eval_select v a b ρ

/-- The node with index `i` tests one of `n` variables, and its outcomes are entries before it. -/
def TableNode.FitsAt (n i : Nat) (x : TableNode) : Prop :=
  (0 ≤ x.var ∧ x.var < n) ∧ (0 ≤ x.low ∧ x.low < i) ∧ 0 ≤ x.high ∧ x.high < i

instance (n i : Nat) (x : TableNode) : Decidable (x.FitsAt n i) :=
  inferInstanceAs (Decidable ((_ ∧ _) ∧ (_ ∧ _) ∧ _ ∧ _))

namespace Table

/-- What a list of nodes stands for: the two constants, and each node given those before it. -/
def build (n : Nat) (nodes : List TableNode) : Except Misuse (Array (Diagram n)) :=
  nodes.foldlM (fun built node => return built.push (← buildNode built node))
    #[.const false, .const true]

theorem build_concat {nodes : List TableNode} {built : Array (Diagram n)} {x : TableNode}
    {d : Diagram n} (h : build n nodes = .ok built) (hx : buildNode built x = .ok d) :
    build n (nodes ++ [x]) = .ok (built.push d) := by
  unfold build at h ⊢
  rw [List.foldlM_append, h]
  simp [hx, bind, Except.bind, pure, Except.pure]

theorem buildNode_eq {built : Array (Diagram n)} {v : Fin n} {i j : Nat} {low high : Diagram n}
    (hi : built[i]? = some low) (hj : built[j]? = some high) :
    buildNode built ⟨v.val, i, j⟩ = .ok (.select v low high) := by
  have hilt : i < built.size := (Array.getElem?_eq_some_iff.mp hi).1
  have hjlt : j < built.size := (Array.getElem?_eq_some_iff.mp hj).1
  have hlater : ¬ ((i : Int) ≥ built.size ∨ (j : Int) ≥ built.size) := by omega
  have hnegative : ¬ ((i : Int) < 0 ∨ (j : Int) < 0) := by omega
  unfold buildNode outcomes
  simp only [Diagram.checkVar_val, hlater, hnegative, Int.toNat_natCast, hi, hj, if_false, bind,
    Except.bind, pure, Except.pure]

structure Built (nodes : List TableNode) (built : Array (Diagram n)) : Prop where
  build_eq : build n nodes = .ok built
  size_eq : built.size = nodes.length + 2
  constant : ∀ b : Bool, built[b.toNat]? = some (.const b)
  node : ∀ (k : Nat) (x : TableNode), nodes[k]? = some x →
    ∃ (v : Fin n) (i j : Nat) (low high : Diagram n), x = ⟨v.val, i, j⟩ ∧
      built[i]? = some low ∧ built[j]? = some high ∧ built[k + 2]? = some (.select v low high)

namespace Built

variable {nodes : List TableNode} {built : Array (Diagram n)}

theorem nil : Built [] (#[.const false, .const true] : Array (Diagram n)) where
  build_eq := rfl
  size_eq := rfl
  constant b := by cases b <;> rfl
  node k x h := by cases h

theorem getElem?_push {d e : Diagram n} {i : Nat} (h : built[i]? = some e) :
    (built.push d)[i]? = some e := by
  have hlt : i < built.size := (Array.getElem?_eq_some_iff.mp h).1
  rw [Array.getElem?_push, if_neg (by omega), h]

theorem push (h : Built nodes built) {v : Fin n} {i j : Nat} {low high : Diagram n}
    (hi : built[i]? = some low) (hj : built[j]? = some high) :
    Built (nodes ++ [⟨v.val, i, j⟩]) (built.push (.select v low high)) where
  build_eq := build_concat h.build_eq (buildNode_eq hi hj)
  size_eq := by simp [h.size_eq]
  constant b := getElem?_push (h.constant b)
  node k x hk := by
    by_cases hlast : k < nodes.length
    · rw [List.getElem?_append_left hlast] at hk
      obtain ⟨w, a, b, l, r, hx, hl, hr, hget⟩ := h.node k x hk
      exact ⟨w, a, b, l, r, hx, getElem?_push hl, getElem?_push hr, getElem?_push hget⟩
    · have hlen : k < (nodes ++ [(⟨v.val, i, j⟩ : TableNode)]).length :=
        (List.getElem?_eq_some_iff.mp hk).1
      obtain rfl : k = nodes.length := by simp at hlen; omega
      rw [List.getElem?_concat_length] at hk
      refine ⟨v, i, j, low, high, (Option.some.inj hk).symm, getElem?_push hi, getElem?_push hj, ?_⟩
      rw [Array.getElem?_push, h.size_eq, if_pos rfl]

end Built

theorem exists_built {nodes : List TableNode}
    (h : ∀ (i : Nat) x, nodes[i]? = some x → x.FitsAt n (i + 2)) :
    ∃ built : Array (Diagram n), Built nodes built := by
  induction nodes using List.reverseRecOn with
  | nil => exact ⟨_, .nil⟩
  | append_singleton nodes x ih =>
    obtain ⟨built, hbuilt⟩ := ih fun i y hy => h i y (by
      rwa [List.getElem?_append_left (List.getElem?_eq_some_iff.mp hy).1])
    obtain ⟨⟨hvar, hvarlt⟩, ⟨hlow, hlowlt⟩, hhigh, hhighlt⟩ :=
      h nodes.length x List.getElem?_concat_length
    have hx : x = ⟨(x.var.toNat : Nat), (x.low.toNat : Nat), (x.high.toNat : Nat)⟩ := by
      rw [Int.toNat_of_nonneg hvar, Int.toNat_of_nonneg hlow, Int.toNat_of_nonneg hhigh]
    have hsize := hbuilt.size_eq
    rw [hx]
    exact ⟨_, hbuilt.push (v := ⟨x.var.toNat, by omega⟩) (Array.getElem?_eq_getElem (by omega))
      (Array.getElem?_eq_getElem (by omega))⟩

theorem Enumerates.exists_built {nodes : List TableNode} {trees : List Tree}
    (h : Enumerates nodes trees) (hreduced : ∀ s ∈ trees, s.Reduced 0 n) :
    ∃ built : Array (Diagram n), Built nodes built ∧
      ∀ (i : Nat) (s : Tree), trees[i]? = some s → ∃ d, built[i]? = some d ∧ d.tree = s := by
  have hvar : ∀ {k v : Nat} {l r : Tree}, trees[k]? = some (.node v l r) →
      (Tree.node v l r).Reduced 0 n := fun hk => hreduced _ (List.mem_of_getElem? hk)
  have hfits : ∀ (k : Nat) x, nodes[k]? = some x → x.FitsAt n (k + 2) := by
    intro k x hx
    obtain ⟨v, i, j, l, r, rfl, hi, hj, -, -, hnode⟩ := h.node k x hx
    have hlt : v < n := (hvar hnode).2.1
    simp only [TableNode.FitsAt]
    omega
  obtain ⟨built, hbuilt⟩ := Table.exists_built hfits
  refine ⟨built, hbuilt, fun i => ?_⟩
  -- The parts of a tree have smaller indexes.
  induction i using Nat.strongRecOn with
  | _ i ih =>
    intro s hs
    by_cases hconstant : ∃ b : Bool, i = b.toNat
    · obtain ⟨b, rfl⟩ := hconstant
      obtain rfl : .leaf b = s := Option.some.inj ((h.constant b).symm.trans hs)
      exact ⟨.const b, hbuilt.constant b, rfl⟩
    · have hge : 2 ≤ i := by
        have hzero : i ≠ 0 := fun hi => hconstant ⟨false, hi⟩
        have hone : i ≠ 1 := fun hi => hconstant ⟨true, hi⟩
        omega
      have hlt : i < trees.length := (List.getElem?_eq_some_iff.mp hs).1
      have hlength := h.length_eq
      obtain ⟨k, rfl⟩ : ∃ k, i = k + 2 := ⟨i - 2, by omega⟩
      have hk := List.getElem?_eq_getElem (l := nodes) (i := k) (by omega)
      obtain ⟨v, i, j, l, r, hx, hi, hj, hl, hr, hnode⟩ := h.node k _ hk
      obtain ⟨w, i', j', low, high, hx', hlow, hhigh, hselect⟩ := hbuilt.node k _ hk
      obtain ⟨hv, hii, hjj⟩ := TableNode.mk.inj (hx.symm.trans hx')
      obtain rfl : v = w.val := Int.ofNat.inj hv
      obtain rfl : i = i' := Int.ofNat.inj hii
      obtain rfl : j = j' := Int.ofNat.inj hjj
      obtain ⟨a, ha, rfl⟩ := ih i hi l hl
      obtain ⟨b, hb, rfl⟩ := ih j hj r hr
      obtain rfl : a = low := Option.some.inj (ha.symm.trans hlow)
      obtain rfl : b = high := Option.some.inj (hb.symm.trans hhigh)
      obtain rfl : Tree.node w a.tree b.tree = s := Option.some.inj (hnode.symm.trans hs)
      exact ⟨_, hselect, Diagram.tree_select_of_reduced w (hvar hnode)⟩

/-- A table that a function may have, read among the functions of any variables that have the same
tree, gives that function. -/
theorem Exports.toDiagram_eq {m : Nat} {d : Diagram m} {t : Table} (h : Exports d t) {e : Diagram n}
    (he : e.tree = d.tree) : t.toDiagram n = .ok e := by
  obtain ⟨root, nodes, trees, rfl, henum, hroot, -, hmem⟩ := h.enumerates
  obtain ⟨built, hbuilt, htrees⟩ := henum.exists_built (n := n) fun s hs => by
    rcases (hmem s).mp hs with hon | ⟨b, rfl⟩
    · exact (he ▸ hon : s.OnPath e.tree).reduced e.reduced
    · trivial
  obtain ⟨f, hf, htree⟩ := htrees root _ hroot
  obtain rfl : f = e := Diagram.ext fun ρ => by rw [Diagram.eval, Diagram.eval, htree, he]
  have hbuild : buildAll (.ofObjects .empty) #[.const false, .const true]
      (⟨placeholders ++ nodes, root⟩ : Table).inner = .ok built := by
    rw [buildAll_eq]
    exact hbuilt.build_eq
  rw [toDiagram]
  -- The constants are not looked up among the functions that are built.
  by_cases hzero : root = 0
  · subst hzero
    rw [if_pos (by rfl), Option.some.inj (hf.symm.trans (hbuilt.constant false))]
    rfl
  by_cases hone : root = 1
  · subst hone
    rw [if_neg (by simp), if_pos (by rfl), Option.some.inj (hf.symm.trans (hbuilt.constant true))]
    rfl
  have hlength : ¬ (placeholders ++ nodes).length < 2 := by simp [placeholders]
  have hroot_ne_zero : (root : Int) ≠ 0 := by omega
  have hroot_ne_one : (root : Int) ≠ 1 := by omega
  rw [if_neg hroot_ne_zero, if_neg hroot_ne_one, if_neg hlength, hbuild]
  have hnegative : ¬ (root : Int) < 0 := by omega
  simp only [hnegative, if_false, bind, Except.bind, Int.toNat_natCast, hf, pure, Except.pure]

theorem toDiagram_ofDiagram {m : Nat} (d : Diagram m) {e : Diagram n} (h : e.tree = d.tree) :
    (ofDiagram d).toDiagram n = .ok e := (exports_ofDiagram d).toDiagram_eq h

end Table

/-- A function is carried over to the one with the same tree. -/
theorem Diagram.translocate_eq {m : Nat} (d : Diagram m) {e : Diagram n} (h : e.tree = d.tree) :
    d.translocate n = .ok e := by
  have hround : (Table.ofDiagram d).toDiagram n = .ok e := Table.toDiagram_ofDiagram d h
  unfold translocate
  split
  · next v hv =>
    have hmem : v ∈ e.tree.support := by
      rw [h, ← support_eq]
      exact List.mem_of_getLast? hv
    rw [if_pos (Tree.bounds_of_mem_support e.reduced hmem).2, hround]
  · exact hround

/-- A function stays what it is among the functions of the same variables. -/
theorem Diagram.translocate_self (d : Diagram n) : d.translocate n = .ok d := d.translocate_eq rfl

end SymbolicLtl
