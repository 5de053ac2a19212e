import Mathlib.Data.List.Nodup
import Mathlib.Data.List.Perm.Basic
import SymbolicLtl.Diagram.Table
import SymbolicLtl.Proofs.Diagram.Dependence

/-!
A table has one entry for each subtree of a function, and a subtree stands before those that it is
part of, however the nodes of the subtrees are numbered and listed: they are sorted by their variables,
and the outcomes of a node test larger ones.
-/
namespace SymbolicLtl

namespace Tree

/-- Some path from the root of a tree leads to `s`. -/
inductive OnPath (s : Tree) : Tree → Prop
  | root : OnPath s s
  | low {v : Nat} {l h : Tree} : OnPath s l → OnPath s (node v l h)
  | high {v : Nat} {l h : Tree} : OnPath s h → OnPath s (node v l h)

theorem onPath_leaf_iff {s : Tree} {b : Bool} : OnPath s (leaf b) ↔ s = leaf b := by
  constructor
  · intro h
    cases h
    rfl
  · rintro rfl
    exact .root

theorem onPath_node_iff {s l h : Tree} {v : Nat} :
    OnPath s (node v l h) ↔ s = node v l h ∨ OnPath s l ∨ OnPath s h := by
  constructor
  · intro hs
    cases hs with
    | root => exact .inl rfl
    | low hl => exact .inr (.inl hl)
    | high hh => exact .inr (.inr hh)
  · rintro (rfl | hl | hh)
    · exact .root
    · exact .low hl
    · exact .high hh

theorem OnPath.sizeOf_le {s t : Tree} (h : OnPath s t) : sizeOf s ≤ sizeOf t := by
  induction h with
  | root => exact Nat.le_refl _
  | low _ ih =>
    rw [node.sizeOf_spec]
    omega
  | high _ ih =>
    rw [node.sizeOf_spec]
    omega

theorem not_onPath_parts (v : Nat) (l h : Tree) :
    ¬ OnPath (node v l h) l ∧ ¬ OnPath (node v l h) h := by
  constructor
  · intro hl
    have hle := hl.sizeOf_le
    rw [node.sizeOf_spec] at hle
    omega
  · intro hh
    have hle := hh.sizeOf_le
    rw [node.sizeOf_spec] at hle
    omega

theorem OnPath.trans {s t u : Tree} (h : OnPath s t) (ht : OnPath t u) : OnPath s u := by
  induction ht with
  | root => exact h
  | low _ ih => exact .low ih
  | high _ ih => exact .high ih

theorem OnPath.reduced {s t : Tree} (h : OnPath s t) {k n : Nat} (ht : t.Reduced k n) :
    s.Reduced k n := by
  induction h generalizing k with
  | root => exact ht
  | @low v l r _ ih => exact (ih ht.2.2.2.1).mono (Nat.le_succ_of_le ht.1)
  | @high v l r _ ih => exact (ih ht.2.2.2.2).mono (Nat.le_succ_of_le ht.1)

theorem OnPath.lt_of_ne {v w n k : Nat} {l r l' r' : Tree}
    (h : OnPath (node w l' r') (node v l r)) (ht : (node v l r).Reduced k n)
    (hne : node w l' r' ≠ node v l r) : v < w := by
  rcases onPath_node_iff.mp h with heq | hl | hr
  · exact absurd heq hne
  · exact (hl.reduced ht.2.2.2.1).1
  · exact (hr.reduced ht.2.2.2.2).1

theorem Reduced.constant_iff {s : Tree} {k n : Nat} (hs : s.Reduced k n) :
    (∃ b, ∀ ρ, s.eval ρ = b) ↔ ∃ b, s = leaf b := by
  constructor
  · rintro ⟨b, hb⟩
    exact ⟨b, eq_of_eval_eq hs trivial hb⟩
  · rintro ⟨b, rfl⟩
    exact ⟨b, fun _ => rfl⟩

theorem Reduced.narrow {t : Tree} {k m n : Nat} (ht : t.Reduced k n)
    (h : ∀ v ∈ t.support, v < m) : t.Reduced k m := by
  induction t generalizing k with
  | leaf b => trivial
  | node w l r ihl ihr =>
    obtain ⟨hkw, _, hne, hl, hr⟩ := ht
    simp only [support, List.mem_cons, mem_union] at h
    have hwm : w < m := h w (.inl rfl)
    have hlm := ihl hl fun v hv => h v (.inr (.inl hv))
    have hrm := ihr hr fun v hv => h v (.inr (.inr hv))
    exact ⟨hkw, hwm, hne, hlm, hrm⟩

end Tree

namespace Table

theorem number_node (v : Nat) (l r : Tree) (nodes : List TableNode) :
    number (.node v l r) nodes =
      insert ⟨v, (number l nodes).1, (number r (number l nodes).2).1⟩
        (number r (number l nodes).2).2 := rfl

theorem getElem?_of_idxOf? {nodes : List TableNode} {x : TableNode} {k : Nat}
    (h : nodes.idxOf? x = some k) : nodes[k]? = some x := by
  obtain ⟨hlt, heq, -⟩ := List.findIdx?_eq_some_iff_getElem.mp h
  rw [List.getElem?_eq_getElem hlt]
  simpa using heq

/-- The trees that the constants and the nodes of a table stand for, each listed once. -/
structure Enumerates (nodes : List TableNode) (trees : List Tree) : Prop where
  length_eq : trees.length = nodes.length + 2
  constant : ∀ b : Bool, trees[b.toNat]? = some (.leaf b)
  nodup : trees.Nodup
  node : ∀ (k : Nat) (x : TableNode), nodes[k]? = some x →
    ∃ (v i j : Nat) (l r : Tree), x = ⟨v, i, j⟩ ∧ i < k + 2 ∧ j < k + 2 ∧
      trees[i]? = some l ∧ trees[j]? = some r ∧ trees[k + 2]? = some (.node v l r)

namespace Enumerates

variable {nodes : List TableNode} {trees : List Tree}

theorem nil : Enumerates [] [.leaf false, .leaf true] where
  length_eq := rfl
  constant b := by cases b <;> rfl
  nodup := by simp
  node k x h := by cases h

theorem leaf_mem (h : Enumerates nodes trees) (b : Bool) : .leaf b ∈ trees :=
  List.mem_of_getElem? (h.constant b)

theorem index_unique (h : Enumerates nodes trees) {i j : Nat} {t : Tree}
    (hi : trees[i]? = some t) (hj : trees[j]? = some t) : i = j := by
  have hlt : i < trees.length := (List.getElem?_eq_some_iff.mp hi).1
  exact (List.getElem?_inj hlt h.nodup).mp (hi.trans hj.symm)

theorem node_mem (h : Enumerates nodes trees) {v i j : Nat} {l r : Tree}
    (hi : trees[i]? = some l) (hj : trees[j]? = some r) (hmem : .node v l r ∈ trees) :
    ⟨v, i, j⟩ ∈ nodes := by
  obtain ⟨m, hm⟩ := List.mem_iff_getElem?.mp hmem
  -- The first two places belong to the constants.
  have hm_ne : ∀ b : Bool, m ≠ b.toNat := by
    rintro b rfl
    rw [h.constant b] at hm
    cases hm
  have hm_ge : 2 ≤ m := by
    have hzero : m ≠ 0 := hm_ne false
    have hone : m ≠ 1 := hm_ne true
    omega
  have hm_lt : m < trees.length := (List.getElem?_eq_some_iff.mp hm).1
  have hlt : m - 2 < nodes.length := by
    have hlen := h.length_eq
    omega
  obtain ⟨v', i', j', l', r', hx, -, -, hi', hj', hm'⟩ :=
    h.node (m - 2) _ (List.getElem?_eq_getElem hlt)
  rw [show m - 2 + 2 = m by omega, hm] at hm'
  obtain ⟨rfl, rfl, rfl⟩ := Tree.node.inj (Option.some.inj hm')
  rw [h.index_unique hi hi', h.index_unique hj hj', ← hx]
  exact List.getElem_mem hlt

theorem push (h : Enumerates nodes trees) {v i j : Nat} {l r : Tree}
    (hi : trees[i]? = some l) (hj : trees[j]? = some r) (hnew : .node v l r ∉ trees) :
    Enumerates (nodes ++ [⟨v, i, j⟩]) (trees ++ [.node v l r]) := by
  have hkeep : ∀ {k : Nat} {t : Tree}, trees[k]? = some t →
      (trees ++ [.node v l r])[k]? = some t := by
    intro k t hk
    rw [List.getElem?_append_left (List.getElem?_eq_some_iff.mp hk).1, hk]
  have hilt : i < trees.length := (List.getElem?_eq_some_iff.mp hi).1
  have hjlt : j < trees.length := (List.getElem?_eq_some_iff.mp hj).1
  have hlen := h.length_eq
  constructor
  · simp only [List.length_append, List.length_singleton]
    omega
  · intro b
    exact hkeep (h.constant b)
  · rw [← List.concat_eq_append, List.nodup_concat]
    exact ⟨hnew, h.nodup⟩
  · intro k x hk
    by_cases hlast : k < nodes.length
    · rw [List.getElem?_append_left hlast] at hk
      obtain ⟨v', i', j', l', r', hx, hik, hjk, hi', hj', hk'⟩ := h.node k x hk
      exact ⟨v', i', j', l', r', hx, hik, hjk, hkeep hi', hkeep hj', hkeep hk'⟩
    · have hklt : k < (nodes ++ [(⟨v, i, j⟩ : TableNode)]).length :=
        (List.getElem?_eq_some_iff.mp hk).1
      rw [List.length_append, List.length_singleton] at hklt
      obtain rfl : k = nodes.length := by omega
      rw [List.getElem?_concat_length] at hk
      have hroot : (trees ++ [.node v l r])[nodes.length + 2]? = some (.node v l r) := by
        rw [← hlen, List.getElem?_concat_length]
      exact ⟨v, i, j, l, r, (Option.some.inj hk).symm, by omega, by omega, hkeep hi, hkeep hj, hroot⟩

/-- A test is found at its index, or it is new and comes last. -/
theorem insert (h : Enumerates nodes trees) {v i j : Nat} {l r : Tree}
    (hi : trees[i]? = some l) (hj : trees[j]? = some r) :
    (.node v l r ∈ trees ∧ (Table.insert ⟨v, i, j⟩ nodes).2 = nodes ∧
      trees[(Table.insert ⟨v, i, j⟩ nodes).1]? = some (.node v l r)) ∨
    (.node v l r ∉ trees ∧ (Table.insert ⟨v, i, j⟩ nodes).1 = trees.length ∧
      Enumerates (Table.insert ⟨v, i, j⟩ nodes).2 (trees ++ [.node v l r])) := by
  unfold Table.insert
  split
  · next k hk =>
    left
    obtain ⟨v', i', j', l', r', hx, -, -, hi', hj', hk'⟩ := h.node k _ (getElem?_of_idxOf? hk)
    obtain ⟨hv, hii, hjj⟩ := TableNode.mk.inj hx
    obtain rfl : v = v' := Int.ofNat.inj hv
    obtain rfl : i = i' := Int.ofNat.inj hii
    obtain rfl : j = j' := Int.ofNat.inj hjj
    obtain rfl : l = l' := Option.some.inj (hi.symm.trans hi')
    obtain rfl : r = r' := Option.some.inj (hj.symm.trans hj')
    exact ⟨List.mem_of_getElem? hk', rfl, hk'⟩
  · next hnone =>
    right
    have hnew : .node v l r ∉ trees := fun hmem =>
      List.idxOf?_eq_none_iff.mp hnone (h.node_mem hi hj hmem)
    exact ⟨hnew, h.length_eq.symm, h.push hi hj hnew⟩

/-- Numbering a tree lists the trees on its paths, each of them once. A tree that is new comes
last. -/
theorem number (h : Enumerates nodes trees) (t : Tree) :
    ∃ trees', Enumerates (Table.number t nodes).2 trees' ∧ trees <+: trees' ∧
      trees'[(Table.number t nodes).1]? = some t ∧
      (t ∉ trees → (Table.number t nodes).1 + 1 = trees'.length) ∧
      ∀ s, s ∈ trees' ↔ s ∈ trees ∨ s.OnPath t := by
  induction t generalizing nodes trees with
  | leaf b =>
    have hmem : ∀ s, s ∈ trees ↔ s ∈ trees ∨ s.OnPath (.leaf b) := by
      intro s
      rw [Tree.onPath_leaf_iff]
      constructor
      · exact .inl
      · rintro (hs | rfl)
        · exact hs
        · exact h.leaf_mem b
    have hnumber : Table.number (.leaf b) nodes = (b.toNat, nodes) := by cases b <;> rfl
    rw [hnumber]
    exact ⟨trees, h, List.prefix_rfl, h.constant b, fun hnew => absurd (h.leaf_mem b) hnew, hmem⟩
  | node v l r ihl ihr =>
    obtain ⟨trees₁, h₁, hkeep₁, hl, -, hmem₁⟩ := ihl h
    obtain ⟨trees₂, h₂, hkeep₂, hr, -, hmem₂⟩ := ihr h₁
    have hl₂ : trees₂[(Table.number l nodes).1]? = some l := by
      obtain ⟨more, rfl⟩ := hkeep₂
      rw [List.getElem?_append_left (List.getElem?_eq_some_iff.mp hl).1, hl]
    have hmem : ∀ s, s ∈ trees₂ ↔ s ∈ trees ∨ s.OnPath l ∨ s.OnPath r := by
      intro s
      rw [hmem₂, hmem₁, or_assoc]
    rw [number_node]
    rcases h₂.insert (v := v) hl₂ hr with ⟨hold, hnodes, hroot⟩ | ⟨hnew, hroot, h₃⟩
    · have hin : .node v l r ∈ trees := by
        obtain ⟨hlow, hhigh⟩ := Tree.not_onPath_parts v l r
        rcases (hmem _).mp hold with hin | hon | hon
        · exact hin
        · exact absurd hon hlow
        · exact absurd hon hhigh
      rw [hnodes]
      refine ⟨trees₂, h₂, hkeep₁.trans hkeep₂, hroot, fun hnot => absurd hin hnot, ?_⟩
      intro s
      rw [hmem, Tree.onPath_node_iff]
      constructor
      · rintro (hs | hs)
        · exact .inl hs
        · exact .inr (.inr hs)
      · rintro (hs | rfl | hs)
        · exact .inl hs
        · exact .inl hin
        · exact .inr hs
    · have hlast : (trees₂ ++ [.node v l r])[trees₂.length]? = some (.node v l r) :=
        List.getElem?_concat_length
      rw [hroot]
      refine ⟨trees₂ ++ [.node v l r], h₃, ?_, hlast, ?_, ?_⟩
      · exact (hkeep₁.trans hkeep₂).trans (List.prefix_append _ _)
      · intro _
        rw [List.length_append, List.length_singleton]
      · intro s
        rw [List.mem_append, List.mem_singleton, hmem, Tree.onPath_node_iff]
        tauto

theorem exists_eq_cons (h : Enumerates nodes trees) :
    ∃ rest, trees = .leaf false :: .leaf true :: rest ∧ rest.length = nodes.length ∧ rest.Nodup ∧
      ∀ s, s ∈ rest ↔ s ∈ trees ∧ ∀ b, s ≠ .leaf b := by
  have hlen := h.length_eq
  have hfalse := h.constant false
  have htrue := h.constant true
  have hnodup := h.nodup
  rcases trees with _ | ⟨a, _ | ⟨b, rest⟩⟩
  · cases hfalse
  · cases htrue
  obtain rfl : a = .leaf false := Option.some.inj hfalse
  obtain rfl : b = .leaf true := Option.some.inj htrue
  rw [List.nodup_cons, List.nodup_cons, List.mem_cons, not_or] at hnodup
  obtain ⟨⟨-, hnot_false⟩, hnot_true, hrest⟩ := hnodup
  refine ⟨rest, rfl, by simpa using hlen, hrest, fun s => ?_⟩
  rw [List.mem_cons, List.mem_cons]
  constructor
  · intro hs
    refine ⟨.inr (.inr hs), fun b => ?_⟩
    rintro rfl
    cases b
    · exact hnot_false hs
    · exact hnot_true hs
  · rintro ⟨rfl | rfl | hs, hleaf⟩
    · exact absurd rfl (hleaf false)
    · exact absurd rfl (hleaf true)
    · exact hs

end Enumerates

variable {n : Nat}

def rawNode (id : Tree → Int) : Tree → RawNode
  | .leaf b => ⟨id (.leaf b), 0, 0, 0⟩
  | .node v l r => ⟨id (.node v l r), v, id l, id r⟩

/-- The entries are those of the listed trees, and the index of a tree is its place. -/
structure Entries.Hold (id : Tree → Int) (trees : List Tree) (e : Entries) : Prop where
  nodes : ∃ inner, e.nodes.toList = placeholders ++ inner ∧ Enumerates inner trees
  index : ∀ (i : Nat) (s : Tree), trees[i]? = some s → e.index.getD (id s) 0 = i

namespace Entries.Hold

variable {id : Tree → Int} {trees : List Tree} {e : Entries}

theorem constants (hid : ∀ b : Bool, id (.leaf b) = b.toNat) :
    Entries.constants.Hold id [.leaf false, .leaf true] where
  nodes := ⟨[], rfl, .nil⟩
  index i s hs := by
    have hfalse : id (.leaf false) = 0 := hid false
    have htrue : id (.leaf true) = 1 := hid true
    match i with
    | 0 =>
      obtain rfl := Option.some.inj hs
      rw [hfalse]
      rfl
    | 1 =>
      obtain rfl := Option.some.inj hs
      rw [htrue]
      rfl

theorem size_eq (h : e.Hold id trees) : e.nodes.size = trees.length := by
  obtain ⟨inner, hinner, henum⟩ := h.nodes
  have hlength := henum.length_eq
  rw [← Array.length_toList, hinner]
  simp only [placeholders, List.length_append, List.length_cons, List.length_nil]
  omega

/-- A node whose outcomes have entries gets the next entry. -/
theorem add (h : e.Hold id trees) {v : Nat} {l r : Tree} (hl : l ∈ trees) (hr : r ∈ trees)
    (hnew : ∀ s ∈ trees, id s ≠ id (.node v l r)) :
    (e.add (rawNode id (.node v l r))).Hold id (trees ++ [.node v l r]) := by
  have hsize := h.size_eq
  have hindex : ∀ (i : Nat) (s : Tree), trees[i]? = some s →
      (e.index.insert (id (.node v l r)) e.nodes.size).getD (id s) 0 = i := by
    intro i s hs
    have hne : compare (id (.node v l r)) (id s) ≠ .eq := by
      rw [Ne, Std.LawfulEqCmp.compare_eq_iff_eq]
      exact (hnew s (List.mem_of_getElem? hs)).symm
    rw [Std.TreeMap.getD_insert, if_neg hne]
    exact h.index i s hs
  obtain ⟨i, hi⟩ := List.mem_iff_getElem?.mp hl
  obtain ⟨j, hj⟩ := List.mem_iff_getElem?.mp hr
  obtain ⟨inner, hinner, henum⟩ := h.nodes
  constructor
  · refine ⟨inner ++ [⟨v, i, j⟩], ?_, henum.push hi hj fun hmem => hnew _ hmem rfl⟩
    simp only [Entries.add, rawNode, Array.toList_push, hinner, hindex i l hi, hindex j r hj,
      List.append_assoc]
  · intro k s hk
    by_cases hlast : k < trees.length
    · rw [List.getElem?_append_left hlast] at hk
      exact hindex k s hk
    · have hlt : k < (trees ++ [Tree.node v l r]).length := (List.getElem?_eq_some_iff.mp hk).1
      rw [List.length_append, List.length_singleton] at hlt
      obtain rfl : k = trees.length := by omega
      rw [List.getElem?_concat_length] at hk
      obtain rfl := Option.some.inj hk
      rw [← hsize]
      exact Std.TreeMap.getD_insert_self

/-- Nodes that come behind their outcomes get entries, one after the other. -/
theorem addAll {rest : List Tree} (h : e.Hold id trees)
    (hordered : ∀ before s after, rest = before ++ s :: after →
      ∃ v l r, s = .node v l r ∧ l ∈ trees ++ before ∧ r ∈ trees ++ before)
    (hid : (trees ++ rest).Pairwise fun a b => id a ≠ id b) :
    ((rest.map (rawNode id)).foldl Entries.add e).Hold id (trees ++ rest) := by
  induction rest generalizing trees e with
  | nil =>
    rw [List.append_nil]
    exact h
  | cons s rest ih =>
    obtain ⟨v, l, r, rfl, hl, hr⟩ := hordered [] s rest rfl
    rw [List.append_nil] at hl hr
    have hnew : ∀ a ∈ trees, id a ≠ id (.node v l r) := fun a ha =>
      (List.pairwise_append.mp hid).2.2 a ha _ List.mem_cons_self
    have hsplit : trees ++ Tree.node v l r :: rest = (trees ++ [.node v l r]) ++ rest := by
      rw [List.append_assoc, List.singleton_append]
    rw [List.map_cons, List.foldl_cons, hsplit]
    refine ih (h.add hl hr hnew) (fun before a after hrest => ?_) (hsplit ▸ hid)
    obtain ⟨w, l', r', ha, hl', hr'⟩ := hordered (.node v l r :: before) a after (by
      rw [hrest, List.cons_append])
    rw [List.append_assoc, List.singleton_append]
    exact ⟨w, l', r', ha, hl', hr'⟩

end Entries.Hold

/-- The trees on the paths of a tree that are not constant, each listed once, with numbers that tell
them apart. -/
structure Lists (id : Tree → Int) (t : Tree) (trees : List Tree) : Prop where
  constant : ∀ b : Bool, id (.leaf b) = b.toNat
  injective : ∀ s s' : Tree, (s.OnPath t ∨ ∃ b, s = .leaf b) → (s'.OnPath t ∨ ∃ b, s' = .leaf b) →
    id s = id s' → s = s'
  nodup : trees.Nodup
  mem_iff : ∀ s, s ∈ trees ↔ s.OnPath t ∧ ∀ b, s ≠ .leaf b

namespace Lists

variable {id : Tree → Int} {t : Tree} {trees : List Tree} {k n : Nat}

theorem exists_node (h : Lists id t trees) {s : Tree} (hs : s ∈ trees) :
    ∃ v l r, s = .node v l r ∧ (Tree.node v l r).OnPath t := by
  obtain ⟨hon, hleaf⟩ := (h.mem_iff s).mp hs
  cases s with
  | leaf b => exact absurd rfl (hleaf b)
  | node v l r => exact ⟨v, l, r, rfl, hon⟩

theorem perm {trees' : List Tree} (h : Lists id t trees) (hperm : trees'.Perm trees) :
    Lists id t trees' :=
  ⟨h.constant, h.injective, hperm.nodup_iff.mpr h.nodup, fun s => hperm.mem_iff.trans (h.mem_iff s)⟩

theorem mem_append_iff (h : Lists id t trees) {s : Tree} :
    s ∈ [Tree.leaf false, .leaf true] ++ trees ↔ s.OnPath t ∨ ∃ b, s = .leaf b := by
  rw [List.mem_append, h.mem_iff]
  constructor
  · rintro (hs | hs)
    · simp only [List.mem_cons, List.not_mem_nil, or_false] at hs
      exact .inr (hs.elim (fun hs => ⟨false, hs⟩) fun hs => ⟨true, hs⟩)
    · exact .inl hs.1
  · intro hs
    by_cases hleaf : ∃ b, s = .leaf b
    · obtain ⟨b, rfl⟩ := hleaf
      cases b <;> simp
    · exact .inr ⟨hs.resolve_right hleaf, fun b hb => hleaf ⟨b, hb⟩⟩

theorem nodup_append (h : Lists id t trees) : ([Tree.leaf false, .leaf true] ++ trees).Nodup := by
  have hleaf : ∀ b, Tree.leaf b ∉ trees := fun b hb => ((h.mem_iff _).mp hb).2 b rfl
  simp [List.nodup_cons, hleaf, h.nodup]

theorem pairwise_id (h : Lists id t trees) :
    ([Tree.leaf false, .leaf true] ++ trees).Pairwise fun a b => id a ≠ id b := by
  refine List.Pairwise.imp_of_mem (fun {a b} ha hb hne heq => ?_) h.nodup_append
  exact hne (h.injective a b (h.mem_append_iff.mp ha) (h.mem_append_iff.mp hb) heq)

/-- In a list with larger variables first an outcome comes before its test. -/
theorem mem_before (h : Lists id t trees) (ht : t.Reduced k n)
    (hsorted : trees.Pairwise fun a b => (rawNode id b).level ≤ (rawNode id a).level)
    {before after : List Tree} {v : Nat} {l r s : Tree}
    (htrees : trees = before ++ .node v l r :: after) (hs : s = l ∨ s = r) :
    s ∈ [Tree.leaf false, .leaf true] ++ before := by
  cases s with
  | leaf b => cases b <;> simp
  | node w l' r' =>
    have hparent : (Tree.node v l r).OnPath t := by
      refine ((h.mem_iff _).mp ?_).1
      rw [htrees]
      exact List.mem_append_right _ List.mem_cons_self
    have hbelow : (Tree.node w l' r').OnPath (.node v l r) := by
      rcases hs with rfl | rfl
      · exact .low .root
      · exact .high .root
    have hne : Tree.node w l' r' ≠ .node v l r := by
      obtain ⟨hlow, hhigh⟩ := Tree.not_onPath_parts v l r
      intro heq
      rcases hs with hs | hs
      · rw [← heq, hs] at hlow
        exact hlow .root
      · rw [← heq, hs] at hhigh
        exact hhigh .root
    have hlt : v < w := hbelow.lt_of_ne (hparent.reduced ht) hne
    have hmem : Tree.node w l' r' ∈ trees := (h.mem_iff _).mpr ⟨hbelow.trans hparent, nofun⟩
    rw [htrees, List.mem_append, List.mem_cons] at hmem
    rcases hmem with hbefore | heq | hafter
    · exact List.mem_append_right _ hbefore
    · exact absurd heq hne
    · -- What comes behind the test has no larger variable.
      rw [htrees, List.pairwise_append, List.pairwise_cons] at hsorted
      have hle : (w : Int) ≤ v := hsorted.2.1.1 _ hafter
      omega

theorem getLast?_eq (h : Lists id t trees) (ht : t.Reduced k n) (hleaf : ∀ b, t ≠ .leaf b)
    (hsorted : trees.Pairwise fun a b => (rawNode id b).level ≤ (rawNode id a).level) :
    trees.getLast? = some t := by
  have hmem : t ∈ trees := (h.mem_iff t).mpr ⟨.root, hleaf⟩
  obtain ⟨before, after, htrees⟩ := List.append_of_mem hmem
  cases after with
  | nil => rw [htrees, List.getLast?_concat]
  | cons s after =>
    have hs : s ∈ trees := by simp [htrees]
    obtain ⟨w, l', r', rfl, hon⟩ := h.exists_node hs
    cases t with
    | leaf b => exact absurd rfl (hleaf b)
    | node v l r =>
      have hnodup := h.nodup
      rw [htrees, List.nodup_append, List.nodup_cons] at hnodup
      have hne : Tree.node w l' r' ≠ .node v l r := by
        rintro heq
        exact hnodup.2.1.1 (heq ▸ List.mem_cons_self)
      have hlt : v < w := hon.lt_of_ne ht hne
      rw [htrees, List.pairwise_append, List.pairwise_cons] at hsorted
      have hle : (w : Int) ≤ v := hsorted.2.1.1 _ List.mem_cons_self
      omega

end Lists

variable {n : Nat}

/-- A table that a function may have: the trees on its paths are numbered and listed in some way, and
their nodes get entries in an order with larger variables first. -/
def Exports (d : Diagram n) (t : Table) : Prop :=
  ∃ (id : Tree → Int) (trees : List Tree) (sorted : List RawNode), Lists id d.tree trees ∧
    sorted.Perm (trees.map (rawNode id)) ∧ sorted.Pairwise (fun a b => b.level ≤ a.level) ∧
    t = ofSorted sorted (id d.tree)

/-- Such a table lists the trees on the paths, each of them behind its parts and the last one being that
of the function. -/
theorem Exports.enumerates {d : Diagram n} {t : Table} (h : Exports d t) :
    ∃ (i : Nat) (nodes : List TableNode) (trees : List Tree),
      t = ⟨placeholders ++ nodes, i⟩ ∧ Enumerates nodes trees ∧ trees[i]? = some d.tree ∧
      ((∀ b, d.tree ≠ .leaf b) → i + 1 = trees.length) ∧
      ∀ s, s ∈ trees ↔ s.OnPath d.tree ∨ ∃ b, s = .leaf b := by
  obtain ⟨id, listed, sorted, hlists, hperm, hsorted, rfl⟩ := h
  obtain ⟨trees, rfl, hsame⟩ : ∃ trees : List Tree,
      sorted = trees.map (rawNode id) ∧ trees.Perm listed :=
    (congrFun (congrFun (List.eq_map_comp_perm (rawNode id)) sorted) listed).mpr hperm
  rw [List.pairwise_map] at hsorted
  replace hlists := hlists.perm hsame
  have hordered : ∀ before s after, trees = before ++ s :: after → ∃ v l r, s = .node v l r ∧
      l ∈ [Tree.leaf false, .leaf true] ++ before ∧ r ∈ [Tree.leaf false, .leaf true] ++ before := by
    intro before s after htrees
    obtain ⟨v, l, r, rfl, -⟩ :=
      hlists.exists_node (htrees ▸ List.mem_append_right _ List.mem_cons_self)
    exact ⟨v, l, r, rfl, hlists.mem_before d.reduced hsorted htrees (.inl rfl),
      hlists.mem_before d.reduced hsorted htrees (.inr rfl)⟩
  have hhold := (Entries.Hold.constants hlists.constant).addAll hordered hlists.pairwise_id
  obtain ⟨nodes, hnodes, henum⟩ := hhold.nodes
  obtain ⟨i, hi⟩ := List.mem_iff_getElem?.mp (hlists.mem_append_iff.mpr (.inl .root))
  refine ⟨i, nodes, _, ?_, henum, hi, fun hleaf => ?_, fun s => hlists.mem_append_iff⟩
  · rw [ofSorted, hnodes, hhold.index i _ hi]
  · have hlast := hlists.getLast?_eq d.reduced hleaf hsorted
    have hwhole : ([Tree.leaf false, .leaf true] ++ trees).getLast? = some d.tree := by
      rw [List.getLast?_append, hlast, Option.some_or]
    rw [List.getLast?_eq_getElem?] at hwhole
    have hindex := henum.index_unique hi hwhole
    have hpos : 0 < ([Tree.leaf false, .leaf true] ++ trees).length := by simp
    omega

/-- The table of a function is one that it may have. -/
theorem exports_ofDiagram (d : Diagram n) : Exports d (ofDiagram d) := by
  obtain ⟨trees, henum, -, hroot, -, hmem⟩ := Enumerates.nil.number d.tree
  obtain ⟨rest, htrees, -, hnodup, hrest⟩ := henum.exists_eq_cons
  generalize hnumber : Table.number d.tree [] = numbering at henum hroot
  obtain ⟨root, nodes⟩ := numbering
  -- A tree has its place in the list as its number.
  let id : Tree → Int := fun s => trees.idxOf s
  have hid : ∀ {i : Nat} {s : Tree}, trees[i]? = some s → id s = i := by
    intro i s hs
    have hfound : trees[trees.idxOf s]? = some s :=
      List.getElem?_idxOf (List.mem_of_getElem? hs)
    exact congrArg Nat.cast (henum.index_unique hfound hs)
  have hmem' : ∀ s, (s.OnPath d.tree ∨ ∃ b, s = .leaf b) → s ∈ trees := by
    rintro s (hs | ⟨b, rfl⟩)
    · exact (hmem s).mpr (.inr hs)
    · exact henum.leaf_mem b
  have hlists : Lists id d.tree rest := by
    refine ⟨fun b => hid (henum.constant b), fun s s' hs hs' heq => ?_, hnodup, fun s => ?_⟩
    · exact (List.idxOf_inj (hmem' s hs)).mp (Int.ofNat.inj heq)
    · rw [hrest, hmem]
      refine and_congr_left fun hleaf => ?_
      simp [hleaf]
  have hraw : rawNodes nodes = rest.map (rawNode id) := by
    refine List.ext_getElem? fun k => ?_
    have hplace : rest[k]? = trees[k + 2]? := by rw [htrees]; rfl
    rw [rawNodes, List.getElem?_map, List.getElem?_map, hplace, List.getElem?_zipIdx]
    cases hk : nodes[k]? with
    | none =>
      have hlength := henum.length_eq
      rw [List.getElem?_eq_none_iff] at hk
      rw [List.getElem?_eq_none (by simp only at hlength; omega)]
      rfl
    | some x =>
      obtain ⟨v, i, j, l, r, rfl, -, -, hl, hr, hnode⟩ := henum.node k x hk
      rw [hnode]
      simp [rawNode, hid hl, hid hr, hid hnode]
  refine ⟨id, rest, (rawNodes nodes).mergeSort fun a b => b.level ≤ a.level, hlists, ?_, ?_, ?_⟩
  · rw [← hraw]
    exact List.mergeSort_perm _ _
  · have hpairwise := @List.pairwise_mergeSort RawNode (fun a b => decide (b.level ≤ a.level))
      (fun a b c hab hbc => by simp only [decide_eq_true_eq] at *; omega)
      (fun a b => by simp only [Bool.or_eq_true, decide_eq_true_eq]; omega) (rawNodes nodes)
    simpa using hpairwise
  · simp only [ofDiagram, (numbered d.tree).property, hnumber, hid hroot]

end Table
end SymbolicLtl
