import Mathlib.Data.Set.Card
import SymbolicLtl.Proofs.Diagram.RoundTrip
import SymbolicLtl.Proofs.Diagram.Values

/-!
A table has as many nodes as there are functions on the paths of a diagram, and values go through
tables from one manager to another and back.
-/
namespace SymbolicLtl

namespace Table.Exports

variable {n : Nat} {d : Diagram n} {t : Table}

theorem lt_of_getElem? (h : Exports d t) {k : Nat} {x : TableNode} (hk : 2 ≤ k)
    (hx : t.nodes[k]? = some x) : (0 ≤ x.low ∧ x.low < k) ∧ 0 ≤ x.high ∧ x.high < k := by
  obtain ⟨root, nodes, trees, rfl, henum, -⟩ := h.enumerates
  have hplace : nodes[k - 2]? = some x := by
    rw [List.getElem?_append_right hk] at hx
    exact hx
  obtain ⟨v, i, j, l, r, rfl, hi, hj, -⟩ := henum.node (k - 2) x hplace
  simp only
  omega

theorem root_eq (h : Exports d t) (hleaf : ∀ b, d.tree ≠ .leaf b) :
    t.root + 1 = t.nodes.length := by
  obtain ⟨root, nodes, trees, rfl, henum, -, hlast, -⟩ := h.enumerates
  have hroot := hlast hleaf
  have hlength := henum.length_eq
  simp only [placeholders, List.length_append, List.length_cons, List.length_nil]
  omega

end Table.Exports

namespace Diagram

variable {n : Nat}

/-- The functions on the paths of a diagram that are not constant. -/
def subfunctions (d : Diagram n) : Set ((Nat → Bool) → Bool) :=
  { g | (∃ s : Tree, s.OnPath d.tree ∧ g = fun ρ => s.eval ρ) ∧ ¬ ∃ b, ∀ ρ, g ρ = b }

theorem subfunctions_eq_image (d : Diagram n) :
    d.subfunctions =
      (fun (s : Tree) ρ => s.eval ρ) '' { s | s.OnPath d.tree ∧ ∀ b, s ≠ .leaf b } := by
  ext g
  constructor
  · rintro ⟨⟨s, hs, rfl⟩, hconst⟩
    rw [(hs.reduced d.reduced).constant_iff, not_exists] at hconst
    exact ⟨s, ⟨hs, hconst⟩, rfl⟩
  · rintro ⟨s, ⟨hs, hleaf⟩, rfl⟩
    refine ⟨⟨s, hs, rfl⟩, ?_⟩
    rw [(hs.reduced d.reduced).constant_iff, not_exists]
    exact hleaf

/-- A table has one node for each function on the paths. -/
theorem encard_subfunctions {d : Diagram n} {t : Table} (h : Table.Exports d t) :
    d.subfunctions.encard = t.size := by
  obtain ⟨i, nodes, trees, rfl, htrees, -, -, hmem⟩ := h.enumerates
  obtain ⟨rest, -, hlength, hnodup, hrest⟩ := htrees.exists_eq_cons
  have hset : { s : Tree | s.OnPath d.tree ∧ ∀ b, s ≠ .leaf b } = ↑rest.toFinset := by
    ext s
    rw [List.coe_toFinset, Set.mem_ofPred_eq, Set.mem_ofPred_eq, hrest, hmem]
    refine and_congr_left fun hleaf => ?_
    simp [hleaf]
  have hinj : Set.InjOn (fun (s : Tree) ρ => s.eval ρ)
      { s : Tree | s.OnPath d.tree ∧ ∀ b, s ≠ .leaf b } := by
    rintro s ⟨hs, -⟩ s' ⟨hs', -⟩ heq
    exact Tree.eq_of_eval_eq (hs.reduced d.reduced) (hs'.reduced d.reduced) (congrFun heq)
  rw [subfunctions_eq_image, hinj.encard_image, hset, Set.encard_coe_eq_coe_finsetCard,
    List.toFinset_card_of_nodup hnodup, hlength]
  simp [Table.size, Table.sizeOf, Table.placeholders]

theorem exists_tree_eq {m : Nat} {d : Diagram n} (h : d.DependsOnly (· < m)) :
    ∃ e : Diagram m, e.tree = d.tree := by
  have hsupport : ∀ v ∈ d.tree.support, v < m := by
    intro v hv
    apply h.of_mem_support
    rw [support_eq]
    exact hv
  exact ⟨⟨d.tree, d.reduced.narrow hsupport⟩, rfl⟩

/-- What is carried over keeps its tree. The largest variable is the last one, and the others fit when it
does. -/
theorem translocate_eq_ok_iff {m : Nat} {d : Diagram n} {e : Diagram m} :
    d.translocate m = .ok e ↔ e.tree = d.tree := by
  refine ⟨fun h => ?_, d.translocate_eq⟩
  have hfits : ∀ v ∈ d.support, v < m := by
    intro v hv
    unfold translocate at h
    split at h
    · next last hlast =>
      split_ifs at h with hm
      obtain ⟨front, hsupport⟩ := List.getLast?_eq_some_iff.mp hlast
      have hordered := Tree.pairwise_support d.reduced
      rw [← support_eq, hsupport, List.pairwise_append] at hordered
      rw [hsupport, List.mem_append, List.mem_singleton] at hv
      rcases hv with hv | rfl
      · exact (hordered.2.2 v hv last List.mem_cons_self).trans hm
      · exact hm
    · next hnone =>
      rw [List.getLast?_eq_none_iff.mp hnone] at hv
      cases hv
  obtain ⟨e', he'⟩ := exists_tree_eq (d.dependsOnly_support.mono hfits)
  rw [d.translocate_eq he'] at h
  cases h
  exact he'

/-- A function is carried over exactly if it depends on no variables but those that are there. -/
theorem exists_translocate_iff {m : Nat} {d : Diagram n} :
    (∃ e : Diagram m, d.translocate m = .ok e) ↔ d.DependsOnly (· < m) := by
  constructor
  · rintro ⟨e, he⟩ ρ σ h
    rw [eval, eval, ← translocate_eq_ok_iff.mp he]
    exact Tree.eval_congr e.reduced fun v _ hv => h v hv
  · intro h
    obtain ⟨e, he⟩ := exists_tree_eq h
    exact ⟨e, d.translocate_eq he⟩

end Diagram

namespace Manager

theorem translocate_own (m : Manager) (d : Diagram m.varnum) :
    m.translocate (m.value d) = .ok (m.value d) :=
  if_pos (rfl : (m.value d).owner = m)

theorem translocate_value {m m' : Manager} (d : Diagram m.varnum) {e : Diagram m'.varnum}
    (hne : m ≠ m') (h : e.tree = d.tree) : m'.translocate (m.value d) = .ok (m'.value e) := by
  have howner : (m.value d).owner ≠ m' := hne
  rw [translocate, if_neg howner]
  change (d.translocate m'.varnum >>= fun e => Except.ok (m'.value e)) = _
  rw [d.translocate_eq h, Attempt.ok_bind]

theorem exists_translocate {m m' : Manager} {d : Diagram m.varnum}
    (h : d.DependsOnly (· < m'.varnum)) :
    ∃ e : Diagram m'.varnum, e.tree = d.tree ∧
      m'.translocate (m.value d) = .ok (m'.value e) ∧
      m.translocate (m'.value e) = .ok (m.value d) := by
  by_cases hm : m = m'
  · subst hm
    exact ⟨d, rfl, m.translocate_own d, m.translocate_own d⟩
  · obtain ⟨e, he⟩ := Diagram.exists_tree_eq h
    have hthere := translocate_value d hm he
    have hback := translocate_value e (Ne.symm hm) he.symm
    exact ⟨e, he, hthere, hback⟩

end Manager

namespace Value

theorem equal_self (m : Manager) (d : Diagram m.varnum) :
    (m.value d).equal (m.value d) = .ok true := by
  rw [equal_eq, decide_eq_true rfl]

/-- The table of a value is one that the value may have, however its nodes are numbered and listed. Each
such table lists every function on the paths once, children first and the value itself last, and a
manager with the variables of the value reads the value from it. In such a manager there is a copy of the
value, which is brought back to the value and from there to the copy. -/
theorem transfer_exact (f : Value) :
    (∃ t, f.owner.toTable f = .ok t ∧ Table.Exports f.diagram t) ∧
    (∀ t, Table.Exports f.diagram t →
      (∀ (k : Nat) (x : TableNode), 2 ≤ k → t.nodes[k]? = some x →
        (0 ≤ x.low ∧ x.low < k) ∧ 0 ≤ x.high ∧ x.high < k) ∧
      f.diagram.subfunctions.encard = t.size ∧
      ((¬ ∃ b, ∀ ρ, f.diagram.eval ρ = b) → t.root + 1 = t.nodes.length) ∧
      ∀ m : Manager, f.diagram.DependsOnly (· < m.varnum) →
        ∃ copy, m.ofTable t = .ok copy ∧ copy.owner = m ∧
          ∀ ρ, copy.diagram.eval ρ = f.diagram.eval ρ) ∧
    ∀ m : Manager, f.diagram.DependsOnly (· < m.varnum) →
      ∃ copy back again, m.translocate f = .ok copy ∧ copy.owner = m ∧
        (∀ ρ, copy.diagram.eval ρ = f.diagram.eval ρ) ∧
        f.owner.translocate copy = .ok back ∧ back.equal f = .ok true ∧
        m.translocate back = .ok again ∧ again.equal copy = .ok true := by
  obtain ⟨owner, d⟩ := f
  refine ⟨⟨Table.ofDiagram d, ?_, Table.exports_ofDiagram d⟩, fun t ht => ?_, fun m hm => ?_⟩
  · change (owner.own (owner.value d) >>= fun e => Except.ok (Table.ofDiagram e)) = _
    rw [Manager.own_value, Attempt.ok_bind]
  · refine ⟨fun k x hk hx => ht.lt_of_getElem? hk hx, Diagram.encard_subfunctions ht,
      fun hconst => ht.root_eq fun b hb => hconst (d.reduced.constant_iff.mpr ⟨b, hb⟩),
      fun m hm => ?_⟩
    obtain ⟨e, he⟩ := Diagram.exists_tree_eq hm
    refine ⟨m.value e, ?_, rfl, fun ρ => ?_⟩
    · rw [Manager.ofTable, ht.toDiagram_eq he, Attempt.ok_bind]
      rfl
    · change e.eval ρ = d.eval ρ
      rw [Diagram.eval, Diagram.eval, he]
  · obtain ⟨e, he, hthere, hback⟩ := Manager.exists_translocate hm
    have heval : ∀ ρ, e.eval ρ = d.eval ρ := by
      intro ρ
      rw [Diagram.eval, Diagram.eval, he]
    exact ⟨_, _, _, hthere, rfl, heval, hback, equal_self owner d, hthere, equal_self m e⟩

def difference : Value := ⟨⟨0, 4⟩, .xor (.var 0) (.var 2)⟩

theorem not_constant_difference : ¬ ∃ b, ∀ ρ, difference.diagram.eval ρ = b := by
  rintro ⟨b, hb⟩
  have hsame := hb fun _ => false
  have hother := hb fun v => v == 0
  simp only [difference, Diagram.eval_xor, Diagram.eval_var] at hsame hother
  rw [← hsame] at hother
  cases hother

/-- The last variable does not matter, so that three variables are enough for a copy. -/
theorem transfer_difference :
    (∃ t, difference.owner.toTable difference = .ok t ∧ t.root + 1 = t.nodes.length ∧
      ∃ copy, (⟨1, 3⟩ : Manager).ofTable t = .ok copy ∧
        ∀ ρ, copy.diagram.eval ρ = difference.diagram.eval ρ) ∧
    ∃ copy, (⟨1, 3⟩ : Manager).translocate difference = .ok copy ∧
      ∀ ρ, copy.diagram.eval ρ = difference.diagram.eval ρ := by
  have hdepends : difference.diagram.DependsOnly (· < 3) :=
    .combine _ (.literal (by decide) true) (.literal (by decide) true)
  obtain ⟨⟨t, ht, hexports⟩, htables, hcopy⟩ := transfer_exact difference
  obtain ⟨-, -, hroot, hread⟩ := htables t hexports
  obtain ⟨copy, hthere, -, heval⟩ := hread ⟨1, 3⟩ hdepends
  obtain ⟨copy', -, -, hthere', -, heval', -⟩ := hcopy ⟨1, 3⟩ hdepends
  exact ⟨⟨t, ht, hroot not_constant_difference, copy, hthere, heval⟩, copy', hthere', heval'⟩

end Value
end SymbolicLtl
