import Mathlib.Data.List.Induction
import SymbolicLtl.Proofs.Diagram.RoundTrip
import SymbolicLtl.Proofs.Diagram.Values

/-!
Tables from outside. A table need not be that of a function: its nodes may test variables in any order,
test one twice on a path or without need, and stand there unused. As long as the outcomes of each node
come before it, what is built is the function that is found by following the table from its root. A
table with another node is rejected.
-/
namespace SymbolicLtl

namespace Table

variable {n : Nat} {t : Table}

/-- The root is an entry, and every node fits its place. -/
structure WellFormed (n : Nat) (t : Table) : Prop where
  root : 0 ≤ t.root ∧ t.root < t.nodes.length
  node : ∀ (i : Nat) x, 2 ≤ i → t.nodes[i]? = some x → x.FitsAt n i

theorem wellFormed_iff : t.WellFormed n ↔ (0 ≤ t.root ∧ t.root < t.nodes.length) ∧
    ∀ i < t.nodes.length, ∀ x ∈ t.nodes[i]?, 2 ≤ i → x.FitsAt n i := by
  constructor
  · intro h
    exact ⟨h.root, fun i _ x hx hi => h.node i x hi hx⟩
  · rintro ⟨hroot, hnodes⟩
    exact ⟨hroot, fun i x hi hx => hnodes i (List.getElem?_eq_some_iff.mp hx).1 x hx hi⟩

instance (n : Nat) (t : Table) : Decidable (t.WellFormed n) := decidable_of_iff' _ wellFormed_iff

/-- The value at an index: a constant, or the value at the outcome of the test there. It is false where
the outcome is no entry before the test. -/
def valueAt (t : Table) (ρ : Nat → Bool) (i : Nat) : Bool :=
  if i < 2 then i == 1
  else match t.nodes[i]? with
    | none => false
    | some x =>
      let outcome := if ρ x.var.toNat then x.high else x.low
      if outcome.toNat < i then t.valueAt ρ outcome.toNat else false
termination_by i

def eval (t : Table) (ρ : Nat → Bool) : Bool := t.valueAt ρ t.root.toNat

theorem valueAt_constant (t : Table) (ρ : Nat → Bool) (b : Bool) : t.valueAt ρ b.toNat = b := by
  unfold valueAt
  cases b <;> rfl

theorem valueAt_node {i : Nat} {x : TableNode} (hi : 2 ≤ i) (hx : t.nodes[i]? = some x)
    (hfits : x.FitsAt n i) (ρ : Nat → Bool) : t.valueAt ρ i =
      if ρ x.var.toNat then t.valueAt ρ x.high.toNat else t.valueAt ρ x.low.toNat := by
  obtain ⟨-, ⟨-, hlow⟩, -, hhigh⟩ := hfits
  conv_lhs => unfold valueAt
  rw [if_neg (by omega), hx]
  cases hvalue : ρ x.var.toNat with
  | true => simp [hvalue, show x.high.toNat < i by omega]
  | false => simp [hvalue, show x.low.toNat < i by omega]

theorem lt_of_buildNode {built : Array (Diagram n)} {x : TableNode} {d : Diagram n}
    (h : buildNode built x = .ok d) : x.low < built.size ∧ x.high < built.size := by
  obtain ⟨_, houtcomes, -⟩ := Attempt.bind_eq_ok.mp h
  obtain ⟨v, -, houtcomes⟩ := Attempt.bind_eq_ok.mp houtcomes
  by_contra hlater
  rw [if_pos (by omega)] at houtcomes
  cases houtcomes

theorem lt_of_build {nodes : List TableNode} {built : Array (Diagram n)}
    (h : build n nodes = .ok built) : built.size = nodes.length + 2 ∧
      ∀ (i : Nat) x, nodes[i]? = some x → x.low < i + 2 ∧ x.high < i + 2 := by
  induction nodes using List.reverseRecOn generalizing built with
  | nil =>
    cases h
    exact ⟨rfl, fun i x hx => by cases hx⟩
  | append_singleton nodes x ih =>
    unfold build at h
    rw [List.foldlM_append] at h
    obtain ⟨before, hbefore, h⟩ := Attempt.bind_eq_ok.mp h
    obtain ⟨hsize, hnodes⟩ := ih hbefore
    rw [List.foldlM_cons] at h
    obtain ⟨built', hlast, h⟩ := Attempt.bind_eq_ok.mp h
    obtain ⟨d, hd, hlast⟩ := Attempt.bind_eq_ok.mp hlast
    cases hlast
    cases h
    refine ⟨by simp [hsize], fun i y hy => ?_⟩
    by_cases hi : i < nodes.length
    · rw [List.getElem?_append_left hi] at hy
      exact hnodes i y hy
    · have hlength : i < (nodes ++ [x]).length := (List.getElem?_eq_some_iff.mp hy).1
      obtain rfl : i = nodes.length := by simp at hlength; omega
      rw [List.getElem?_concat_length] at hy
      cases hy
      have hlt := lt_of_buildNode hd
      omega

theorem Built.eval_eq (h : t.WellFormed n) {built : Array (Diagram n)} (hbuilt : Built t.inner built)
    (i : Nat) (d : Diagram n) (hd : built[i]? = some d) (ρ : Nat → Bool) :
    d.eval ρ = t.valueAt ρ i := by
  induction i using Nat.strongRecOn generalizing d with
  | ind i ih =>
    by_cases hconst : i < 2
    · obtain ⟨b, rfl⟩ : ∃ b : Bool, i = b.toNat := by
        obtain rfl | rfl : i = 0 ∨ i = 1 := by omega
        · exact ⟨false, rfl⟩
        · exact ⟨true, rfl⟩
      obtain rfl := Option.some.inj ((hbuilt.constant b).symm.trans hd)
      rw [Diagram.eval_const, valueAt_constant]
    · obtain ⟨k, rfl⟩ : ∃ k, i = k + 2 := ⟨i - 2, by omega⟩
      have hk : k < t.inner.length := by
        have hlt := (Array.getElem?_eq_some_iff.mp hd).1
        rw [hbuilt.size_eq] at hlt
        omega
      have hx : t.nodes[k + 2]? = some (t.inner[k]) := by
        rw [← List.getElem?_eq_getElem, inner, List.getElem?_drop, Nat.add_comm]
      have hfits := h.node (k + 2) _ (by omega) hx
      obtain ⟨v, low, high, dlow, dhigh, hnode, hlow, hhigh, hselect⟩ :=
        hbuilt.node k _ (List.getElem?_eq_getElem hk)
      obtain rfl := Option.some.inj (hselect.symm.trans hd)
      rw [valueAt_node (by omega) hx hfits]
      rw [hnode] at hfits ⊢
      obtain ⟨-, ⟨-, hlowlt⟩, -, hhighlt⟩ := hfits
      dsimp only at hlowlt hhighlt
      rw [Diagram.eval_select, ih low (by omega) dlow hlow, ih high (by omega) dhigh hhigh]
      rfl

/-- A root that is no constant is looked up among the entries, all of which are built. -/
theorem toDiagram_eq_ok (hroot : 2 ≤ t.root) (hlength : 2 ≤ t.nodes.length) {d : Diagram n} :
    t.toDiagram n = .ok d ↔
      ∃ built, build n t.inner = .ok built ∧ built[t.root.toNat]? = some d := by
  have hzero : t.root ≠ 0 := by omega
  have hone : t.root ≠ 1 := by omega
  have hnegative : ¬ t.root < 0 := by omega
  rw [toDiagram, if_neg hzero, if_neg hone, if_neg (by omega), buildAll_eq, Attempt.bind_eq_ok]
  refine exists_congr fun built => and_congr_right fun _ => ?_
  rw [if_neg hnegative]
  cases built[t.root.toNat]? with
  | none => simp [throw, throwThe, MonadExceptOf.throw]
  | some e => simp [pure, Except.pure]

/-- A well-formed table is read as the function of its values. -/
theorem WellFormed.exists_toDiagram (h : t.WellFormed n) :
    ∃ d : Diagram n, t.toDiagram n = .ok d ∧ ∀ ρ, d.eval ρ = t.eval ρ := by
  obtain ⟨hnonneg, hlt⟩ := h.root
  by_cases hroot : 2 ≤ t.root
  · have hinner : ∀ (i : Nat) x, t.inner[i]? = some x → x.FitsAt n (i + 2) := by
      intro i x hx
      rw [inner, List.getElem?_drop, Nat.add_comm] at hx
      exact h.node (i + 2) x (by omega) hx
    obtain ⟨built, hbuilt⟩ := exists_built hinner
    have hin : t.root.toNat < built.size := by
      rw [hbuilt.size_eq, inner, List.length_drop]
      omega
    have hget := Array.getElem?_eq_getElem hin
    refine ⟨_, (toDiagram_eq_ok hroot (by omega)).mpr ⟨built, hbuilt.build_eq, hget⟩, fun ρ => ?_⟩
    exact hbuilt.eval_eq h _ _ hget ρ
  · -- A constant root is not looked up.
    obtain hzero | hone : t.root = 0 ∨ t.root = 1 := by omega
    · refine ⟨.const false, by rw [toDiagram, if_pos hzero]; rfl, fun ρ => ?_⟩
      rw [eval, hzero]
      exact (t.valueAt_constant ρ false).symm
    · refine ⟨.const true, by rw [toDiagram, if_neg (by omega), if_pos hone]; rfl, fun ρ => ?_⟩
      rw [eval, hone]
      exact (t.valueAt_constant ρ true).symm

/-- A table is rejected if one of its nodes does not come behind its outcomes, wherever the root is. -/
theorem toDiagram_ne_ok (hroot : 2 ≤ t.root) {i : Nat} {x : TableNode} (hi : 2 ≤ i)
    (hx : t.nodes[i]? = some x) (hlater : i ≤ x.low ∨ i ≤ x.high) (d : Diagram n) :
    t.toDiagram n ≠ .ok d := by
  intro hd
  have hlt : i < t.nodes.length := (List.getElem?_eq_some_iff.mp hx).1
  obtain ⟨built, hbuilt, -⟩ := (toDiagram_eq_ok hroot (by omega)).mp hd
  have hinner : t.inner[i - 2]? = some x := by
    rw [inner, List.getElem?_drop, Nat.add_sub_cancel' hi, hx]
  have hbefore := (lt_of_build hbuilt).2 (i - 2) x hinner
  omega

end Table

/-- In every manager a well-formed table is read as the one value that has the values of the table under
all assignments, so two of them are read as equal values exactly if they have the same values. A table
whose root is a node is rejected when some node, needed or not, does not come behind its outcomes. -/
theorem Manager.ofTable_exact (m : Manager) :
    (∀ t : Table, t.WellFormed m.varnum → ∃ d, m.ofTable t = .ok (m.value d) ∧
      ∀ e : Diagram m.varnum, e = d ↔ ∀ ρ, e.eval ρ = t.eval ρ) ∧
    (∀ t u : Table, t.WellFormed m.varnum → u.WellFormed m.varnum →
      ∃ v w same, m.ofTable t = .ok v ∧ m.ofTable u = .ok w ∧ v.equal w = .ok same ∧
        (same = true ↔ ∀ ρ, t.eval ρ = u.eval ρ)) ∧
    ∀ t : Table, 2 ≤ t.root ∧ t.root < t.nodes.length →
      (∃ (i : Nat) (x : TableNode), 2 ≤ i ∧ t.nodes[i]? = some x ∧ (i ≤ x.low ∨ i ≤ x.high)) →
      ∃ e, m.ofTable t = .error e := by
  have hread : ∀ {t : Table} {d : Diagram m.varnum}, t.toDiagram m.varnum = .ok d →
      m.ofTable t = .ok (m.value d) := by
    intro t d hd
    rw [Manager.ofTable, hd]
    rfl
  refine ⟨fun t ht => ?_, fun t u ht hu => ?_, ?_⟩
  · obtain ⟨d, hd, heval⟩ := ht.exists_toDiagram
    refine ⟨d, hread hd, fun e => ⟨?_, fun he => ?_⟩⟩
    · rintro rfl
      exact heval
    · exact Diagram.ext fun ρ => (he ρ).trans (heval ρ).symm
  · obtain ⟨d, hd, hteval⟩ := ht.exists_toDiagram
    obtain ⟨e, he, hueval⟩ := hu.exists_toDiagram
    refine ⟨_, _, _, hread hd, hread he, Value.equal_eq m d e, ?_⟩
    rw [decide_eq_true_iff]
    constructor
    · rintro rfl ρ
      rw [← hteval, ← hueval]
    · intro hsame
      exact Diagram.ext fun ρ => by rw [hteval, hueval, hsame]
  · rintro t ⟨hroot, -⟩ ⟨i, x, hi, hx, hlater⟩
    cases hd : t.toDiagram m.varnum with
    | ok d => exact absurd hd (Table.toDiagram_ne_ok hroot hi hx hlater d)
    | error e =>
      refine ⟨e, ?_⟩
      rw [Manager.ofTable, hd]
      rfl

/-- One of two variables is true. The second one is tested first and then again, and there is a node
that nothing refers to and that tests without need. -/
def Table.tangled : Table :=
  ⟨[⟨0, 0, 0⟩, ⟨0, 0, 0⟩, ⟨0, 0, 1⟩, ⟨1, 0, 1⟩, ⟨0, 1, 1⟩, ⟨1, 2, 3⟩], 5⟩

def Table.untangled : Table := ⟨[⟨0, 0, 0⟩, ⟨0, 0, 0⟩, ⟨1, 0, 1⟩, ⟨0, 2, 1⟩], 3⟩

def Table.circular : Table := ⟨[⟨0, 0, 0⟩, ⟨0, 0, 0⟩, ⟨0, 0, 1⟩, ⟨1, 3, 1⟩], 2⟩

/-- The two tables are read as equal values, and the third one is rejected. -/
theorem Manager.ofTable_tangled : let m : Manager := ⟨0, 2⟩
    (∃ v w, m.ofTable .tangled = .ok v ∧ m.ofTable .untangled = .ok w ∧ v.equal w = .ok true) ∧
      ∃ e, m.ofTable .circular = .error e := by
  intro m
  obtain ⟨-, hequal, hrejected⟩ := ofTable_exact m
  have hsame : ∀ ρ, Table.tangled.eval ρ = Table.untangled.eval ρ := by
    intro ρ
    cases h0 : ρ 0 <;> cases h1 : ρ 1 <;>
      simp [Table.eval, Table.tangled, Table.untangled, Table.valueAt, h0, h1]
  obtain ⟨v, w, same, hv, hw, hvw, hiff⟩ := hequal .tangled .untangled (by decide) (by decide)
  rw [hiff.mpr hsame] at hvw
  exact ⟨⟨v, w, hv, hw, hvw⟩, hrejected .circular (by decide) ⟨3, _, by decide, rfl, by decide⟩⟩

end SymbolicLtl
