import SymbolicLtl.Network.Run
import SymbolicLtl.Proofs.Relation.Copies
import SymbolicLtl.Proofs.Slicing.Cover

/-!
What the workers of a network compute with. Each of them has copies of its own, made through tables,
and the copies are what they were made of; so is all that one worker reads of another.
-/
namespace SymbolicLtl

theorem Family.exists_collect {k : Nat} {α ε : Type} {f : Fin k → Except ε α}
    (h : ∀ i, ∃ a, f i = .ok a) : ∃ v, collect k f = .ok v := by
  choose a ha using h
  exact ⟨.ofFn a, collect_eq_ok_iff.mpr fun i => by rw [get_ofFn, ha]⟩

namespace Network

variable {n : Nat} {p : Product n}

/-- Every worker computes with copies of what the network was made of. -/
structure Faithful (net : Network p) : Prop where
  relation : ∀ w, (net.station w).relation = p.relation
  cubes : ∀ w, (net.station w).cubes = net.cubes
  forward : ∀ w, (net.station w).forward =
    (p.automaton.outgoing (net.stateOf w)).map fun e => ⟨e.target, e.label⟩
  backward : ∀ w, (net.station w).backward =
    (p.automaton.incoming (net.stateOf w)).map fun e => ⟨e.source, e.label⟩

theorem mapM_translocate_label {k : Nat} (state : Edge n k → Fin k) (l : List (Edge n k)) :
    (l.mapM fun e => do return (⟨state e, ← e.label.translocate n⟩ : Route n k)) =
      .ok (l.map fun e => ⟨state e, e.label⟩) := by
  rw [Attempt.mapM_eq_ok, List.forall₂_map_right_iff, List.forall₂_same]
  intro e _
  rw [e.label.translocate_self]
  rfl

theorem slices_of_make {slices : List Slice} {net : Network p} (h : make p slices = .ok net) :
    net.slices = (Layout.make p.size slices).slices := by
  obtain ⟨cubes, -, h⟩ := Attempt.bind_eq_ok.mp h
  obtain ⟨stations, -, h⟩ := Attempt.bind_eq_ok.mp h
  cases h
  rfl

section Make

variable {numVars : Int} {init : Diagram n} {constraints : List (Diagram n)} {method : Method}
  (hmake : Relation.make numVars init constraints method = .ok p.relation)

include hmake

theorem Station.make_eq {slices : List Slice} {cubes : Family slices.length (Diagram n)}
    (hcubes : makeCubes n slices = .ok cubes) (q : Fin p.size) :
    make p slices q = .ok ⟨p.relation, cubes,
      (p.automaton.outgoing q).map fun e => ⟨e.target, e.label⟩,
      (p.automaton.incoming q).map fun e => ⟨e.source, e.label⟩⟩ := by
  unfold make
  rw [Relation.clone_self hmake, Attempt.ok_bind, hcubes, Attempt.ok_bind, mapM_translocate_label,
    Attempt.ok_bind, mapM_translocate_label, Attempt.ok_bind]
  rfl

/-- A network that has been made is faithful. -/
theorem faithful_of_make {slices : List Slice} {net : Network p}
    (hnet : Network.make p slices = .ok net) : net.Faithful := by
  obtain ⟨cubes, hcubes, hnet⟩ := Attempt.bind_eq_ok.mp hnet
  obtain ⟨stations, hstations, hnet⟩ := Attempt.bind_eq_ok.mp hnet
  cases hnet
  have hstation := fun w => Except.ok.inj
    ((Family.collect_eq_ok_iff.mp hstations w).symm.trans (Station.make_eq hmake hcubes _))
  exact ⟨fun w => congrArg Station.relation (hstation w), fun w => congrArg Station.cubes (hstation w),
    fun w => congrArg Station.forward (hstation w), fun w => congrArg Station.backward (hstation w)⟩

/-- A network of slices over current values can be made. Its cubes are over current values and
cover all assignments. -/
theorem exists_make {slices : List Slice} (h : Slice.OverCurrent p.relation.numVars slices) :
    ∃ net : Network p, Network.make p slices = .ok net ∧ net.Faithful ∧
      (∀ ρ, ∃ s, (net.cubes s).eval ρ = true) ∧
      ∀ s, (net.cubes s).OverCurrent p.relation.numVars := by
  obtain ⟨cubes, hcubes, hcover, hover⟩ := h.exists_makeCubes p.relation.fits p.size
  let layout := Layout.make p.size slices
  obtain ⟨stations, hstations⟩ := @Family.exists_collect (p.size * layout.slices.length) _ _
    (fun w => Station.make p layout.slices (stateAt w))
    fun w => ⟨_, Station.make_eq hmake hcubes (stateAt w)⟩
  have hnet : Network.make p slices =
      .ok ⟨layout.slices, layout.nonempty, cubes, stations⟩ := by
    unfold Network.make
    dsimp only
    rw [hcubes, Attempt.ok_bind, hstations]
    rfl
  exact ⟨_, hnet, faithful_of_make hmake hnet, hcover, hover⟩

end Make

section Tables

variable {net : Network p} {w : net.Id}

theorem Faithful.cubeOf_eq (hnet : net.Faithful) (w : net.Id) :
    net.cubeOf w = net.cubes (net.sliceOf w) := by
  rw [cubeOf, hnet.cubes]

theorem accept_eq_ok_iff {t : Table} {d : Diagram n} :
    net.accept w t = .ok d ↔ t.toDiagram n = .ok d ∧ d.implies (net.cubeOf w) = true := by
  unfold accept
  rw [Attempt.bind_eq_ok]
  constructor
  · rintro ⟨e, he, h⟩
    split_ifs at h with hin
    cases h
    exact ⟨he, hin⟩
  · rintro ⟨he, hin⟩
    exact ⟨d, he, if_pos hin⟩

theorem accept_ofDiagram {d : Diagram n} (h : d.implies (net.cubeOf w) = true) :
    net.accept w (Table.ofDiagram d) = .ok d :=
  accept_eq_ok_iff.mpr ⟨Table.toDiagram_ofDiagram d rfl, h⟩

/-- A worker reads what it was given at the start. -/
theorem load_start (hnet : net.Faithful) (states : StateSets n p.size) (constraint : Constraint n) :
    net.load w (Table.ofDiagram (net.inputOf states w))
      (constraint.map fun _ => Table.ofDiagram (net.limitOf constraint w)) =
        .ok (net.inputOf states w, net.limitOf constraint w) := by
  have hinput : (net.inputOf states w).implies (net.cubeOf w) = true := by
    rw [hnet.cubeOf_eq, Diagram.implies_iff]
    intro ρ hρ
    rw [inputOf, Diagram.eval_and, Bool.and_eq_true] at hρ
    exact hρ.2
  unfold load
  cases constraint with
  | none =>
    rw [accept_ofDiagram hinput]
    rfl
  | some sets =>
    simp only [Option.map_some, Table.toDiagram_ofDiagram _ rfl, accept_ofDiagram hinput]
    rfl

end Tables
end Network
end SymbolicLtl
