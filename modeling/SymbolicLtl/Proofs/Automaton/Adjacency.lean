import Mathlib.Data.Finset.Dedup
import Mathlib.Data.List.Perm.Basic
import SymbolicLtl.Proofs.Automaton.NeverClaim
import SymbolicLtl.Proofs.Diagram.Transfer

/-!
The lists of an automaton. For every state there is a list of the edges that leave it and a list of
those that enter it, and an edge is put into two of these lists, one after the other. Both kinds of lists
tell of the same edges.
-/
namespace SymbolicLtl

namespace Edge

variable {n k : Nat}

def triple (e : Edge n k) : Nat × Nat × Diagram n := (e.source.val, e.target.val, e.label)

def translocate (e : Edge n k) (m : Nat) : Except Misuse (Edge m k) := do
  return ⟨e.source, e.target, ← e.label.translocate m⟩

structure Matches {m : Nat} (e : Edge n k) (e' : Edge m k) : Prop where
  source : e'.source = e.source
  target : e'.target = e.target
  tree : e'.label.tree = e.label.tree

theorem Matches.eval_label {m : Nat} {e : Edge n k} {e' : Edge m k} (h : e.Matches e') :
    e'.label.eval = e.label.eval := by
  funext ρ
  rw [Diagram.eval, Diagram.eval, h.tree]

theorem translocate_eq_ok_iff {m : Nat} {e : Edge n k} {e' : Edge m k} :
    e.translocate m = .ok e' ↔ e.Matches e' := by
  unfold translocate
  rw [Attempt.bind_eq_ok]
  simp only [Diagram.translocate_eq_ok_iff]
  constructor
  · rintro ⟨d, hd, h⟩
    cases h
    exact ⟨rfl, rfl, hd⟩
  · obtain ⟨source, target, label⟩ := e'
    rintro ⟨rfl, rfl, hlabel⟩
    exact ⟨label, hlabel, rfl⟩

end Edge

namespace Automaton

/-- Edges that leave a state stand in its forward list with their targets, and edges that enter it in its
backward list with their sources. -/
structure Adjacency (n : Nat) where
  forward : List (List (Nat × Diagram n))
  backward : List (List (Nat × Diagram n))

namespace Adjacency

variable {n : Nat}

def empty (n size : Nat) : Adjacency n := ⟨.replicate size [], .replicate size []⟩

/-- Puts an entry behind all others of a list, which must be there. -/
def append {α : Type} (lists : List (List α)) (i : Nat) (x : α) : Except Misuse (List (List α)) :=
  if i < lists.length then .ok (lists.modify i (· ++ [x])) else .error .badIndex

/-- The edges that the forward lists tell of, by their sources. -/
def forwardEdges (l : Adjacency n) : List (Nat × Nat × Diagram n) :=
  l.forward.zipIdx.flatMap fun (edges, source) => edges.map fun (target, d) => (source, target, d)

def backwardEdges (l : Adjacency n) : List (Nat × Nat × Diagram n) :=
  l.backward.zipIdx.flatMap fun (edges, target) => edges.map fun (source, d) => (source, target, d)

end Adjacency

structure Tables (n : Nat) extends Adjacency n where
  initial : Finset Nat
  accepting : Finset Nat

def tables {n : Nat} (a : Automaton n) : Tables n where
  forward := (List.range a.size).map fun q => (a.outgoing q).map fun e => (e.target.val, e.label)
  backward := (List.range a.size).map fun q => (a.incoming q).map fun e => (e.source.val, e.label)
  initial := (a.initial.map Fin.val).toFinset
  accepting := (a.accepting.map Fin.val).toFinset

def bySource {n : Nat} (a : Automaton n) : List (Edge n a.size) :=
  (List.range a.size).flatMap a.outgoing

variable {n : Nat}

theorem translocate_eq (a : Automaton n) (m : Nat) : a.translocate m =
    ((a.bySource.mapM fun e => e.translocate m) >>= fun edges =>
      .ok ⟨a.size, edges, a.initial, a.accepting⟩) := rfl

theorem length_forward_tables (a : Automaton n) : a.tables.forward.length = a.size := by
  simp [tables]

namespace Adjacency

theorem append_map_range {α : Type} {k i : Nat} (hi : i < k) (f : Nat → List α) (x : α) :
    append ((List.range k).map f) i x =
      .ok ((List.range k).map fun q => f q ++ if q = i then [x] else []) := by
  unfold append
  rw [if_pos (by simpa using hi)]
  congr 1
  ext1 j
  rw [List.getElem?_modify]
  by_cases hj : j < k
  · by_cases hij : i = j
    · simp [hj, hij]
    · simp [hj, hij, Ne.symm hij]
  · simp [hj]

/-- Among lists by keys, a new element goes to the list of its key. -/
theorem append_lists {α β : Type} {k : Nat} (key : α → Nat) (entry : α → β) (l : List α) {x : α}
    (hx : key x < k) :
    append ((List.range k).map fun q => (l.filter (key · == q)).map entry) (key x) (entry x) =
      .ok ((List.range k).map fun q => ((l ++ [x]).filter (key · == q)).map entry) := by
  rw [append_map_range hx]
  congr 2
  funext q
  rw [List.filter_append, List.map_append, List.filter_singleton]
  by_cases hq : q = key x
  · simp [hq]
  · have hkey : (key x == q) = false := beq_eq_false_iff_ne.mpr (Ne.symm hq)
    simp [hq, hkey]

/-- Both lists of an edge are there, so that it is put into both of them. -/
theorem append_forward (a : Automaton n) (e : Edge n a.size) :
    append a.tables.forward e.source.val (e.target.val, e.label) =
      .ok ({ a with edges := a.edges ++ [e] } : Automaton n).tables.forward :=
  append_lists (fun e : Edge n a.size => e.source.val) _ a.edges e.source.isLt

theorem append_backward (a : Automaton n) (e : Edge n a.size) :
    append a.tables.backward e.target.val (e.source.val, e.label) =
      .ok ({ a with edges := a.edges ++ [e] } : Automaton n).tables.backward :=
  append_lists (fun e : Edge n a.size => e.target.val) _ a.edges e.target.isLt

theorem flatMap_range_single {α : Type} {k i : Nat} (hi : i < k) (l : List α) :
    ((List.range k).flatMap fun q => if q = i then l else []) = l := by
  induction k with
  | zero => omega
  | succ k ih =>
    rw [List.range_succ, List.flatMap_append, List.flatMap_singleton]
    by_cases hik : k = i
    · have hbefore : ((List.range k).flatMap fun q => if q = i then l else []) = [] := by
        rw [List.flatMap_eq_nil_iff]
        intro q hq
        have hlt := List.mem_range.mp hq
        exact if_neg (by omega)
      rw [hbefore, if_pos hik, List.nil_append]
    · rw [ih (by omega), if_neg hik, List.append_nil]

theorem flatMap_lists {α β γ : Type} (k : Nat) (key : α → Nat) (entry : α → β) (join : β → Nat → γ)
    (l : List α) :
    ((List.range k).map fun q => (l.filter (key · == q)).map entry).zipIdx.flatMap
        (fun p => p.1.map fun y => join y p.2) =
      ((List.range k).flatMap fun q => l.filter (key · == q)).map fun x => join (entry x) (key x) := by
  have hindexed : ∀ f : Nat → List β,
      ((List.range k).map f).zipIdx = (List.range k).map fun q => (f q, q) := by
    intro f
    apply List.ext_getElem?
    intro j
    by_cases hj : j < k <;> simp [hj]
  rw [hindexed, List.flatMap_map, List.map_flatMap]
  congr 1
  funext q
  rw [List.map_map]
  refine List.map_congr_left fun x hx => ?_
  have hkey : key x = q := by simpa using (List.mem_filter.mp hx).2
  simp [hkey]

/-- Lists by keys hold everything once. -/
theorem perm_lists {α : Type} {k : Nat} (key : α → Nat) {l : List α} (hl : ∀ x ∈ l, key x < k) :
    ((List.range k).flatMap fun q => l.filter (key · == q)).Perm l := by
  induction l with
  | nil => simp
  | cons x l ih =>
    rw [List.forall_mem_cons] at hl
    have hfront : ∀ q, (x :: l).filter (key · == q) =
        (if q = key x then [x] else []) ++ l.filter (key · == q) := by
      intro q
      by_cases hq : q = key x
      · simp [hq]
      · have hkey : (key x == q) = false := beq_eq_false_iff_ne.mpr (Ne.symm hq)
        simp [hq, hkey]
    simp only [hfront]
    refine (List.flatMap_append_perm _ _ _).symm.trans ?_
    rw [flatMap_range_single hl.1]
    exact (ih hl.2).cons x

theorem filter_lists {α : Type} {k q : Nat} (hq : q < k) (key : α → Nat) (l : List α) :
    ((List.range k).flatMap fun r => l.filter (key · == r)).filter (key · == q) =
      l.filter (key · == q) := by
  have hsame : ∀ r, (l.filter (key · == r)).filter (key · == q) =
      if r = q then l.filter (key · == q) else [] := by
    intro r
    rw [List.filter_filter]
    by_cases hr : r = q
    · simp [hr]
    · rw [if_neg hr, List.filter_eq_nil_iff]
      intro x _ hx
      simp only [Bool.and_eq_true, beq_iff_eq] at hx
      exact hr (hx.2.symm.trans hx.1)
  rw [List.filter_flatMap]
  simp only [hsame]
  exact flatMap_range_single hq _

end Adjacency

namespace Tables

open Adjacency

theorem forwardEdges_tables (a : Automaton n) :
    a.tables.forwardEdges = a.bySource.map Edge.triple :=
  flatMap_lists a.size (fun e : Edge n a.size => e.source.val) (fun e => (e.target.val, e.label))
    (fun y s => (s, y.1, y.2)) a.edges

theorem backwardEdges_tables (a : Automaton n) :
    a.tables.backwardEdges = ((List.range a.size).flatMap a.incoming).map Edge.triple :=
  flatMap_lists a.size (fun e : Edge n a.size => e.target.val) (fun e => (e.source.val, e.label))
    (fun y t => (y.1, t, y.2)) a.edges

theorem bySource_perm (a : Automaton n) : a.bySource.Perm a.edges :=
  perm_lists (fun e : Edge n a.size => e.source.val) fun e _ => e.source.isLt

theorem forwardEdges_perm (a : Automaton n) :
    a.tables.forwardEdges.Perm (a.edges.map Edge.triple) := by
  rw [forwardEdges_tables]
  exact (bySource_perm a).map _

theorem backwardEdges_perm (a : Automaton n) :
    a.tables.backwardEdges.Perm (a.edges.map Edge.triple) := by
  rw [backwardEdges_tables]
  exact (perm_lists (fun e : Edge n a.size => e.target.val) fun e _ => e.target.isLt).map _

/-- Both kinds of lists tell of the same edges, each as often, and all states are there. -/
structure Mirrored (t : Tables n) : Prop where
  edges : t.forwardEdges.Perm t.backwardEdges
  size : t.backward.length = t.forward.length
  states : ∀ e ∈ t.forwardEdges, e.1 < t.forward.length ∧ e.2.1 < t.forward.length
  initial : ∀ q ∈ t.initial, q < t.forward.length
  accepting : ∀ q ∈ t.accepting, q < t.forward.length

theorem mirrored_tables (a : Automaton n) : a.tables.Mirrored where
  edges := (forwardEdges_perm a).trans (backwardEdges_perm a).symm
  size := by simp [tables]
  states := by
    intro e he
    obtain ⟨e, -, rfl⟩ := List.mem_map.mp ((forwardEdges_perm a).mem_iff.mp he)
    rw [length_forward_tables]
    exact ⟨e.source.isLt, e.target.isLt⟩
  initial := by
    intro q hq
    obtain ⟨q, -, rfl⟩ := List.mem_map.mp (List.mem_toFinset.mp hq)
    rw [length_forward_tables]
    exact q.isLt
  accepting := by
    intro q hq
    obtain ⟨q, -, rfl⟩ := List.mem_map.mp (List.mem_toFinset.mp hq)
    rw [length_forward_tables]
    exact q.isLt

def labelled (e : Nat × Nat × Diagram n) : Nat × Nat × ((Nat → Bool) → Bool) :=
  (e.1, e.2.1, e.2.2.eval)

/-- The forward lists of a copy tell of the same edges in the same order, its backward lists of the same
edges, and its states are initial and accepting as before. -/
structure IsCopy {m : Nat} (t : Tables n) (copy : Tables m) : Prop where
  forward : List.Forall₂ (List.Forall₂ fun e e' => e'.1 = e.1 ∧ e'.2.eval = e.2.eval) t.forward
    copy.forward
  edges : (copy.backwardEdges.map labelled).Perm (t.backwardEdges.map labelled)
  initial : copy.initial = t.initial
  accepting : copy.accepting = t.accepting

theorem isCopy_tables {m : Nat} {a : Automaton n} {b : Automaton m} (h : a.translocate m = .ok b) :
    a.tables.IsCopy b.tables := by
  rw [translocate_eq] at h
  obtain ⟨copies, hcopies, h⟩ := Attempt.bind_eq_ok.mp h
  cases h
  have hpairs : List.Forall₂ Edge.Matches a.bySource copies :=
    (Attempt.mapM_eq_ok.mp hcopies).imp fun e e' he => Edge.translocate_eq_ok_iff.mp he
  constructor
  · have hlist : ∀ q < a.size, List.Forall₂ Edge.Matches (a.outgoing q)
        (copies.filter fun e => e.source.val == q) := by
      intro q hq
      have hfilter : a.bySource.filter (fun e => e.source.val == q) = a.outgoing q :=
        filter_lists hq (fun e : Edge n a.size => e.source.val) a.edges
      rw [← hfilter]
      exact List.rel_filter (fun e e' he => by simp only [he.source]) hpairs
    unfold tables
    rw [List.forall₂_map_left_iff, List.forall₂_map_right_iff, List.forall₂_same]
    intro q hq
    rw [List.forall₂_map_left_iff, List.forall₂_map_right_iff]
    refine (hlist q (List.mem_range.mp hq)).imp fun e e' he => ?_
    exact ⟨congrArg Fin.val he.target, he.eval_label⟩
  · have hsame : (copies.map Edge.triple).map labelled = (a.bySource.map Edge.triple).map labelled := by
      rw [List.map_map, List.map_map, ← List.forall₂_eq_eq_eq, List.forall₂_map_left_iff,
        List.forall₂_map_right_iff]
      refine hpairs.flip.imp fun e' e he => ?_
      simp only [Function.comp_apply, labelled, Edge.triple, he.source, he.target, he.eval_label]
    have hcopy := (backwardEdges_perm ⟨a.size, copies, a.initial, a.accepting⟩).map labelled
    have horiginal := (backwardEdges_perm a).map labelled
    have hordered := ((bySource_perm a).map Edge.triple).map labelled
    rw [hsame] at hcopy
    exact hcopy.trans (hordered.trans horiginal.symm)
  · rfl
  · rfl

/-- An automaton can be copied exactly if all its labels fit. -/
theorem exists_translocate_iff (a : Automaton n) {m : Nat} :
    (∃ b, a.translocate m = .ok b) ↔ ∀ e ∈ a.tables.forwardEdges, e.2.2.DependsOnly (· < m) := by
  have hcopies : (∃ b, a.translocate m = .ok b) ↔
      ∃ copies, (a.bySource.mapM fun e => e.translocate m) = .ok copies := by
    rw [translocate_eq]
    cases (a.bySource.mapM fun e => e.translocate m : Except Misuse (List (Edge m a.size))) with
    | error e => simp
    | ok copies => simp
  rw [hcopies, Attempt.exists_mapM_iff, forwardEdges_tables, List.forall_mem_map]
  refine forall_congr' fun e => imp_congr_right fun _ => ?_
  rw [Edge.triple, ← Diagram.exists_translocate_iff]
  simp only [Edge.translocate_eq_ok_iff, Diagram.translocate_eq_ok_iff]
  constructor
  · rintro ⟨e', he'⟩
    exact ⟨e'.label, he'.tree⟩
  · rintro ⟨d, hd⟩
    exact ⟨⟨e.source, e.target, d⟩, rfl, rfl, hd⟩

end Tables
end Automaton
end SymbolicLtl
