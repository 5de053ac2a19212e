import SymbolicLtl.Proofs.Attempt
import SymbolicLtl.Proofs.Diagram.Transfer
import SymbolicLtl.Proofs.Relation.StateCount

/-!
Copies of a relation among the functions of other variables. The parts of a copy are the same functions,
so sets of states have the same images in it and the same numbers of states.
-/
namespace SymbolicLtl

variable {n m : Nat}

namespace Diagram

/-- Functions with the same values have the same tree, however many variables there are. -/
theorem tree_eq_of_eval_eq {a : Diagram n} {b : Diagram m} (h : ∀ ρ, a.eval ρ = b.eval ρ) :
    a.tree = b.tree := by
  have ha : a.tree.Reduced 0 (max n m) := a.reduced.widen (Nat.le_max_left n m)
  have hb : b.tree.Reduced 0 (max n m) := b.reduced.widen (Nat.le_max_right n m)
  exact Tree.eq_of_eval_eq ha hb h

theorem eval_eq_of_tree_eq {a : Diagram n} {b : Diagram m} (h : b.tree = a.tree) (ρ : Nat → Bool) :
    b.eval ρ = a.eval ρ := by
  unfold eval
  rw [h]

theorem isTrue_iff_tree (d : Diagram n) : d.isTrue = true ↔ d.tree = .leaf true := by
  unfold isTrue
  rw [isConst_iff]
  constructor
  · intro h
    rw [h]
    rfl
  · intro h
    exact ext fun ρ => eval_eq_of_tree_eq (b := d) (a := const true) h ρ

theorem exists_map_tree_eq {l : List (Diagram n)} (h : ∀ d ∈ l, d.DependsOnly (· < m)) :
    ∃ l' : List (Diagram m), l'.map (·.tree) = l.map (·.tree) := by
  induction l with
  | nil => exact ⟨[], rfl⟩
  | cons d l ih =>
    rw [List.forall_mem_cons] at h
    obtain ⟨e, he⟩ := exists_tree_eq h.1
    obtain ⟨l', hl'⟩ := ih h.2
    exact ⟨e :: l', by rw [List.map_cons, List.map_cons, he, hl']⟩

theorem mapM_translocate_eq {l : List (Diagram n)} {l' : List (Diagram m)}
    (h : l'.map (·.tree) = l.map (·.tree)) : l.mapM (·.translocate m) = .ok l' := by
  have hpairs : List.Forall₂ (fun d e : Tree => d = e) (l.map (·.tree)) (l'.map (·.tree)) := by
    rw [h, List.forall₂_same]
    exact fun _ _ => rfl
  rw [List.forall₂_map_left_iff, List.forall₂_map_right_iff] at hpairs
  rw [Attempt.mapM_eq_ok]
  exact hpairs.imp fun d e hde => d.translocate_eq hde.symm

end Diagram

namespace Relation

/-- Parts that a method made stay as they are when each of them is a constraint of its own. -/
theorem partsOf_partition_parts {method : Method} {constraints parts : List (Diagram n)}
    (h : partsOf method constraints = .ok parts) : partsOf .partition parts = .ok parts := by
  have hone : ∀ d : Diagram n, partsOf .partition [d] = .ok [d] := by
    intro d
    cases hd : d.isTrue with
    | false => simp [partsOf, hd]
    | true =>
      obtain rfl := (Diagram.isConst_iff d true).mp hd
      rfl
  cases method with
  | monolithic =>
    cases h
    exact hone _
  | partition =>
    simp only [partsOf] at h
    split at h
    · cases h
      exact hone _
    · next hne =>
      cases h
      have hkept : (constraints.filter fun c => !c.isTrue).filter (fun c => !c.isTrue) =
          constraints.filter fun c => !c.isTrue := by simp
      simp only [partsOf, hkept]
  | other code => cases h

theorem partsOf_partition_eq_self_iff {parts : List (Diagram n)} :
    partsOf .partition parts = .ok parts ↔ parts.map (·.tree) = [.leaf true] ∨
      (parts.map (·.tree) ≠ [] ∧ .leaf true ∉ parts.map (·.tree)) := by
  have hkept : (parts.filter fun d => !d.isTrue) = parts ↔ .leaf true ∉ parts.map (·.tree) := by
    rw [List.filter_eq_self, List.mem_map, not_exists]
    refine forall_congr' fun d => ?_
    rw [not_and, ← d.isTrue_iff_tree, Bool.not_eq_true']
    simp
  simp only [partsOf]
  split
  · next hnone =>
    rw [Except.ok.injEq]
    constructor
    · intro h
      rw [← h]
      exact .inl rfl
    · rintro (hone | ⟨hne, hnot⟩)
      · rw [List.map_eq_singleton_iff] at hone
        obtain ⟨d, rfl, hd⟩ := hone
        rw [Diagram.eq_const_true (d.isTrue_iff_tree.mpr hd)]
      · rw [← hkept, hnone] at hnot
        rw [← hnot] at hne
        exact absurd rfl hne
  · next hsome =>
    rw [Except.ok.injEq, hkept]
    constructor
    · intro h
      refine .inr ⟨?_, h⟩
      rw [← hkept] at h
      rw [h] at hsome
      simpa using hsome
    · rintro (hone | ⟨-, hnot⟩)
      · rw [List.map_eq_singleton_iff] at hone
        obtain ⟨d, rfl, hd⟩ := hone
        have hd := d.isTrue_iff_tree.mpr hd
        simp [hd] at hsome
      · exact hnot

/-- Parts with the same trees as parts that a method made stay as they are under that method. -/
theorem partsOf_eq_self_of_trees {method : Method} {constraints parts : List (Diagram n)}
    {parts' : List (Diagram m)} (h : partsOf method constraints = .ok parts)
    (htrees : parts'.map (·.tree) = parts.map (·.tree)) : partsOf method parts' = .ok parts' := by
  cases method with
  | monolithic =>
    cases h
    rw [List.map_singleton, List.map_eq_singleton_iff] at htrees
    obtain ⟨d, rfl, -⟩ := htrees
    have hone : (Diagram.const true).and d = d := Diagram.ext fun ρ => by simp
    change Except.ok [(Diagram.const true).and d] = _
    rw [hone]
  | partition =>
    have hself := partsOf_partition_parts h
    rw [partsOf_partition_eq_self_iff] at hself ⊢
    rwa [htrees]
  | other code => cases h

theorem method_of_make {numVars : Int} {init : Diagram n} {constraints : List (Diagram n)}
    {method : Method} {r : Relation n} (h : make numVars init constraints method = .ok r) :
    r.method = method := by
  unfold make at h
  by_cases hlow : n < wordOf (2 * numVars)
  · simp [hlow, Attempt.refuse, bind, Except.bind] at h
  · simp only [hlow, if_false] at h
    obtain ⟨parts, -, h⟩ := Attempt.bind_eq_ok.mp h
    split_ifs at h
    cases h
    rfl

theorem ofParts_eq_self (r : Relation n) :
    ofParts r.numVars r.fits r.method r.init r.parts = r := by
  simp only [ofParts, ← r.forward_eq, ← r.backward_eq]

/-- The same relation among the functions of other variables. -/
structure IsCopy (r : Relation n) (copy : Relation m) : Prop where
  numVars : copy.numVars = r.numVars
  method : copy.method = r.method
  init : copy.init.tree = r.init.tree
  parts : copy.parts.map (·.tree) = r.parts.map (·.tree)

namespace IsCopy

variable {r : Relation n} {copy : Relation m}

theorem holds_iff (h : r.IsCopy copy) (σ : Nat → Bool) : copy.Holds σ ↔ r.Holds σ := by
  have htrees : ∀ {k : Nat} (s : Relation k),
      s.Holds σ ↔ ∀ t ∈ s.parts.map (·.tree), t.eval σ = true := by
    intro k s
    rw [List.forall_mem_map]
    rfl
  rw [htrees, htrees, h.parts]

theorem passes_iff (h : r.IsCopy copy) (dir : Direction) (ρ ρ' : Nat → Bool) :
    copy.Passes dir ρ ρ' ↔ r.Passes dir ρ ρ' := by
  cases dir with
  | forward => simp only [Passes, toCurrent, h.numVars, h.holds_iff]
  | backward => simp only [Passes, toNext, h.numVars, h.holds_iff]

theorem parts_ne_nil (h : r.IsCopy copy) (hne : r.parts ≠ []) : copy.parts ≠ [] := by
  intro hnil
  have hparts := h.parts
  rw [hnil, List.map_nil, eq_comm, List.map_eq_nil_iff] at hparts
  exact hne hparts

theorem exists_image (h : r.IsCopy copy) (hne : r.parts ≠ []) {s : Diagram n} {s' : Diagram m}
    (hs : s.OverCurrent r.numVars) (htree : s'.tree = s.tree) (dir : Direction) :
    ∃ image image', r.image dir s = .ok image ∧ copy.image dir s' = .ok image' ∧
      image.tree = image'.tree := by
  have hne' := h.parts_ne_nil hne
  have heval := Diagram.eval_eq_of_tree_eq htree
  cases dir with
  | forward =>
    refine ⟨_, _, rfl, rfl, Diagram.tree_eq_of_eval_eq fun ρ => ?_⟩
    rw [Bool.eq_iff_iff, eval_postImage hne, eval_postImage hne']
    simp only [heval, h.passes_iff]
  | backward =>
    have hs' : s'.AvoidsNext copy.numVars := by
      intro ρ σ hρσ
      rw [heval, heval]
      rw [h.numVars] at hρσ
      exact hs.avoidsNext ρ σ hρσ
    obtain ⟨image, himage⟩ := r.exists_preImage hs.avoidsNext
    obtain ⟨image', himage'⟩ := copy.exists_preImage hs'
    refine ⟨image, image', himage, himage', Diagram.tree_eq_of_eval_eq fun ρ => ?_⟩
    rw [Bool.eq_iff_iff, eval_preImage hne himage, eval_preImage hne' himage']
    simp only [heval, h.passes_iff]

theorem stateCount_eq (h : r.IsCopy copy) {s : Diagram n} {s' : Diagram m}
    (hs : s.OverCurrent r.numVars) (htree : s'.tree = s.tree) :
    copy.stateCount s' = r.stateCount s := by
  have heval := Diagram.eval_eq_of_tree_eq htree
  have hs' : s'.OverCurrent copy.numVars := by
    intro ρ σ hρσ
    rw [heval, heval]
    rw [h.numVars] at hρσ
    exact hs ρ σ hρσ
  rw [stateCount_eq_card _ hs', stateCount_eq_card _ hs, h.numVars]
  simp only [Diagram.HoldsAt, heval]

end IsCopy

/-- A copy is made of functions with the same trees. -/
theorem clone_eq {numVars : Int} {init : Diagram n} {constraints : List (Diagram n)}
    {method : Method} {r : Relation n} (h : make numVars init constraints method = .ok r)
    {init' : Diagram m} (hinit : init'.tree = r.init.tree) {parts' : List (Diagram m)}
    (hparts : parts'.map (·.tree) = r.parts.map (·.tree)) (hm : 2 * r.numVars ≤ m) :
    r.clone m = .ok (ofParts r.numVars hm r.method init' parts') := by
  have hmade := (make_eq_ok h).2.2
  have hself := partsOf_eq_self_of_trees (partsOf_partition_parts hmade) hparts
  have hmake := make_eq hm init' hself
  unfold clone
  rw [Diagram.mapM_translocate_eq hparts, Attempt.ok_bind, r.init.translocate_eq hinit,
    Attempt.ok_bind, hmake]
  rfl

/-- The copy of a relation among the same functions is the relation itself. -/
theorem clone_self {numVars : Int} {init : Diagram n} {constraints : List (Diagram n)}
    {method : Method} {r : Relation n} (h : make numVars init constraints method = .ok r) :
    r.clone n = .ok r := by
  rw [clone_eq h rfl rfl r.fits, ofParts_eq_self]

theorem dependsOnly_partsOf {P : Nat → Prop} {method : Method} {constraints parts : List (Diagram n)}
    (hconstraints : ∀ c ∈ constraints, c.DependsOnly P)
    (h : partsOf method constraints = .ok parts) : ∀ part ∈ parts, part.DependsOnly P := by
  cases method with
  | monolithic =>
    cases h
    rw [List.forall_mem_singleton]
    have hfold : ∀ acc : Diagram n, acc.DependsOnly P →
        (constraints.foldl .and acc).DependsOnly P := by
      induction constraints with
      | nil => exact fun _ hacc => hacc
      | cons c constraints ih =>
        rw [List.forall_mem_cons] at hconstraints
        exact fun acc hacc => ih hconstraints.2 _ (hacc.and hconstraints.1)
    exact hfold _ (.const true)
  | partition =>
    simp only [partsOf] at h
    split at h
    · cases h
      exact List.forall_mem_singleton.mpr (.const true)
    · cases h
      exact fun part hpart => hconstraints part (List.mem_of_mem_filter hpart)
  | other code => cases h

end Relation

theorem Manager.translocate_of_tree_eq {a b : Manager} {d : Diagram a.varnum} {e : Diagram b.varnum}
    (h : e.tree = d.tree) : b.translocate (a.value d) = .ok (b.value e) := by
  by_cases hab : a = b
  · subst hab
    obtain rfl : e = d := Diagram.ext (Diagram.eval_eq_of_tree_eq h)
    exact a.translocate_own e
  · exact translocate_value d hab h

namespace Relation

/-- In a manager with enough variables there is a copy of a relation. It has as many parts and the
same initial states, and it is made of its parts. Every set of states that is carried over has as many
states there, and its images in both directions come back as the images under the relation. -/
theorem clone_exact {a b : Manager} {numVars : Int} {init : Diagram a.varnum}
    {constraints : List (Diagram a.varnum)} {method : Method} {r : Relation a.varnum}
    (hmake : make numVars init constraints method = .ok r)
    (hinit : init.DependsOnly (· < 2 * r.numVars))
    (hconstraints : ∀ c ∈ constraints, c.DependsOnly (· < 2 * r.numVars))
    (hvars : 2 * r.numVars ≤ b.varnum) :
    ∃ copy, r.clone b.varnum = .ok copy ∧ copy.numVars = r.numVars ∧ copy.method = r.method ∧
      copy.parts.length = r.parts.length ∧ (∀ ρ, copy.init.eval ρ = r.init.eval ρ) ∧
      make copy.numVars copy.init copy.parts copy.method = .ok copy ∧
      ∀ s : Diagram a.varnum, s.OverCurrent r.numVars →
        ∃ s', b.translocate (a.value s) = .ok (b.value s') ∧ copy.stateCount s' = r.stateCount s ∧
          ∀ dir, ∃ image image' back, r.image dir s = .ok image ∧ copy.image dir s' = .ok image' ∧
            a.translocate (b.value image') = .ok back ∧ back.equal (a.value image) = .ok true := by
  have hbound : ∀ {d : Diagram a.varnum}, d.DependsOnly (· < 2 * r.numVars) →
      d.DependsOnly (· < b.varnum) := fun hd => hd.mono fun v hv => Nat.lt_of_lt_of_le hv hvars
  obtain ⟨-, hstart, hmade⟩ := make_eq_ok hmake
  obtain ⟨init', hinit'⟩ := Diagram.exists_tree_eq (hbound (hstart ▸ hinit))
  obtain ⟨parts', hparts'⟩ := Diagram.exists_map_tree_eq (m := b.varnum) fun d hd =>
    hbound (dependsOnly_partsOf hconstraints hmade d hd)
  let copy := ofParts r.numVars hvars r.method init' parts'
  have hcopy : r.IsCopy copy := ⟨rfl, rfl, hinit', hparts'⟩
  refine ⟨copy, clone_eq hmake hinit' hparts' hvars, rfl, rfl, ?_,
    Diagram.eval_eq_of_tree_eq hinit', ?_, fun s hs => ?_⟩
  · have hlength := congrArg List.length hparts'
    rwa [List.length_map, List.length_map] at hlength
  · rw [← method_of_make hmake] at hmade
    exact make_eq hvars init' (partsOf_eq_self_of_trees hmade hparts')
  · have hless : ∀ v, IsCurrent r.numVars v → v < b.varnum := by
      intro v hv
      unfold IsCurrent at hv
      omega
    obtain ⟨s', hs'⟩ := Diagram.exists_tree_eq (hs.mono hless)
    refine ⟨s', Manager.translocate_of_tree_eq hs', hcopy.stateCount_eq hs hs', fun dir => ?_⟩
    obtain ⟨image, image', himage, himage', htree⟩ :=
      hcopy.exists_image (parts_ne_nil hmake) hs hs' dir
    exact ⟨image, image', a.value image, himage, himage', Manager.translocate_of_tree_eq htree,
      Value.equal_self a image⟩

def wide : Manager := ⟨0, 4⟩

def narrow : Manager := ⟨1, 2⟩

def raised : Diagram wide.varnum := .literal ⟨0, by decide⟩ true

def alternating : Relation wide.varnum :=
  .ofParts 1 (by decide) .partition (.const true) [raised.xor (.literal ⟨1, by decide⟩ true)]

/-- Without variables to spare there is still one state in which the variable is true, and it still has
the other state as its only predecessor. -/
theorem clone_alternating : ∃ copy s' image' back, alternating.clone narrow.varnum = .ok copy ∧
    copy.parts.length = 1 ∧ narrow.translocate (wide.value raised) = .ok (narrow.value s') ∧
    copy.stateCount s' = 1 ∧ copy.image .backward s' = .ok image' ∧
    wide.translocate (narrow.value image') = .ok back ∧
    back.equal (wide.value (.literal ⟨0, by decide⟩ false)) = .ok true := by
  have hmake : make 1 (.const true) [raised.xor (.literal ⟨1, by decide⟩ true)] .partition =
      .ok alternating := rfl
  have hconstraints : ∀ c ∈ [raised.xor (.literal ⟨1, by decide⟩ true)],
      c.DependsOnly (· < 2 * alternating.numVars) :=
    List.forall_mem_singleton.mpr
      (.combine _ (.literal (by decide) true) (.literal (by decide) true))
  have hraised : raised.OverCurrent alternating.numVars := .literal ⟨by decide, rfl⟩ true
  have hvars : 2 * alternating.numVars ≤ narrow.varnum := by decide
  have hcount : alternating.stateCount raised = 1 := rfl
  have hbefore : alternating.image .backward raised = .ok (.literal ⟨0, by decide⟩ false) := rfl
  obtain ⟨copy, hcopy, -, -, hparts, -, -, hsets⟩ :=
    clone_exact hmake (.const true) hconstraints hvars
  obtain ⟨s', hs', hstates, himages⟩ := hsets raised hraised
  obtain ⟨image, image', back, himage, himage', hback, hequal⟩ := himages .backward
  obtain rfl := Except.ok.inj (hbefore.symm.trans himage)
  exact ⟨copy, s', image', back, hcopy, hparts, hs', hstates.trans hcount, himage', hback, hequal⟩

end Relation
end SymbolicLtl
