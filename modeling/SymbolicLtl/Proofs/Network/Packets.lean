import SymbolicLtl.Proofs.Network.Stations
import SymbolicLtl.Proofs.Reachability.Search

/-!
What a worker sends on: the packets for a worker hold the points of its slice that are one step away
from the states passed on.
-/
namespace SymbolicLtl.Network

variable {n : Nat} {p : Product n} {net : Network p}

theorem stateOf_idOf (q : Fin p.size) (s : Fin net.slices.length) :
    net.stateOf (net.idOf q s) = q := by
  have hpos : 0 < net.slices.length := List.length_pos_iff.mpr net.nonempty
  apply Fin.ext
  simp only [stateOf, stateAt, idOf]
  rw [Nat.mul_comm, Nat.mul_add_div hpos, Nat.div_eq_of_lt s.isLt, Nat.add_zero]

theorem sliceOf_idOf (q : Fin p.size) (s : Fin net.slices.length) :
    net.sliceOf (net.idOf q s) = s := by
  apply Fin.ext
  simp only [sliceOf, idOf]
  rw [Nat.mul_comm, Nat.mul_add_mod, Nat.mod_eq_of_lt s.isLt]

theorem idOf_stateOf (w : net.Id) : net.idOf (net.stateOf w) (net.sliceOf w) = w := by
  apply Fin.ext
  simp only [idOf, stateOf, stateAt, sliceOf]
  rw [Nat.mul_comm]
  exact Nat.div_add_mod _ _

section Packets

variable (hnet : net.Faithful) {w : net.Id} {q : Fin p.size} {states : Diagram n}

include hnet

theorem mem_packets {x : net.Packet} :
    x ∈ net.packets w q states ↔ ∃ s, x = ⟨net.idOf q s, states.and (net.cubes s)⟩ ∧
      (states.and (net.cubes s)).isFalse = false := by
  simp only [packets, hnet.cubes, List.mem_filterMap, List.mem_finRange, true_and]
  refine exists_congr fun s => ?_
  by_cases h : (states.and (net.cubes s)).isFalse
  · simp [h]
  · simp [h, eq_comm]

/-- The packets for a worker hold what the states have in its slice. -/
theorem exists_mem_packets {t : net.Id} {ρ : Nat → Bool} :
    (∃ x ∈ net.packets w q states, x.target = t ∧ x.states.eval ρ = true) ↔
      q = net.stateOf t ∧ states.eval ρ = true ∧ (net.cubeOf t).eval ρ = true := by
  constructor
  · rintro ⟨x, hx, rfl, hρ⟩
    obtain ⟨s, rfl, -⟩ := (mem_packets hnet).mp hx
    rw [Diagram.eval_and, Bool.and_eq_true] at hρ
    exact ⟨(stateOf_idOf q s).symm, hρ.1, by rw [hnet.cubeOf_eq, sliceOf_idOf]; exact hρ.2⟩
  · rintro ⟨rfl, hs, hc⟩
    have hρ : (states.and (net.cubes (net.sliceOf t))).eval ρ = true := by
      rw [← hnet.cubeOf_eq, Diagram.eval_and, Bool.and_eq_true]
      exact ⟨hs, hc⟩
    exact ⟨_, (mem_packets hnet).mpr ⟨net.sliceOf t, rfl, Diagram.isFalse_eq_false hρ⟩,
      idOf_stateOf t, hρ⟩

theorem implies_cubeOf_of_mem_packets {x : net.Packet} (hx : x ∈ net.packets w q states) :
    x.states.implies (net.cubeOf x.target) = true := by
  obtain ⟨s, rfl, -⟩ := (mem_packets hnet).mp hx
  rw [hnet.cubeOf_eq, sliceOf_idOf, Diagram.implies_iff]
  intro ρ hρ
  rw [Diagram.eval_and, Bool.and_eq_true] at hρ
  exact hρ.2

end Packets

theorem mem_outgoing {e : Edge n p.size} {q : Fin p.size} :
    e ∈ p.automaton.outgoing q ↔ e ∈ p.automaton.edges ∧ e.source = q := by
  simp [Automaton.outgoing, Fin.ext_iff]

theorem mem_incoming {e : Edge n p.size} {q : Fin p.size} :
    e ∈ p.automaton.incoming q ↔ e ∈ p.automaton.edges ∧ e.target = q := by
  simp [Automaton.incoming, Fin.ext_iff]

section Propagate

variable {dir : Direction} {w : net.Id} {states : Diagram n}

/-- Only a clash of variables keeps states from being passed on. -/
theorem propagate_eq_error {m : Misuse} (h : net.propagate dir w states = .error m) :
    dir = .backward ∧ (net.station w).relation.preImage states = .error m ∧ m = .renameClash := by
  unfold propagate at h
  split_ifs at h
  cases dir with
  | forward => cases h
  | backward =>
    rcases Attempt.bind_eq_error.mp h with hi | ⟨image, -, h⟩
    · exact ⟨rfl, hi, Relation.preImage_eq_error hi⟩
    · split_ifs at h <;> cases h

variable (hnet : net.Faithful)

include hnet

/-- What is sent on splits into the contributions of edges: together they are the points one step
away, and against the edges none of them mentions next values. -/
theorem propagate_eq_ok {packets : List net.Packet} {images : Nat}
    (h : net.propagate dir w states = .ok (packets, images)) :
    ∃ branches : List (Fin p.size × Diagram n),
      packets = branches.flatMap (fun b => net.packets w b.1 b.2) ∧
      (p.relation.parts ≠ [] → ∀ q ρ', (∃ b ∈ branches, b.1 = q ∧ b.2.eval ρ' = true) ↔
        ∃ ρ, states.eval ρ = true ∧ p.Move dir (net.stateOf w, ρ) (q, ρ')) ∧
      (p.relation.parts ≠ [] → dir = .backward →
        (∀ e ∈ p.automaton.edges, e.label.AvoidsNext p.relation.numVars) →
        ∀ b ∈ branches, b.2.AvoidsNext p.relation.numVars) := by
  simp only [propagate, hnet.relation, hnet.forward, hnet.backward, List.map_map,
    List.flatMap_map, Function.comp_def] at h
  split_ifs at h with hfalse
  · cases h
    rw [Diagram.isFalse_iff] at hfalse
    exact ⟨[], rfl, by simp [hfalse], by simp⟩
  · cases dir with
    | forward =>
      cases h
      let sources := ((p.automaton.outgoing (net.stateOf w)).map fun e =>
        (e.target, states.and e.label)).filter fun x => !x.2.isFalse
      refine ⟨sources.map fun x => (x.1, p.relation.postImage x.2), ?_, fun hne q ρ' => ?_, ?_⟩
      · rw [List.flatMap_map]
      · constructor
        · rintro ⟨b, hb, rfl, hρ'⟩
          obtain ⟨x, hx, rfl⟩ := List.mem_map.mp hb
          obtain ⟨e, he, rfl⟩ := List.mem_map.mp (List.mem_filter.mp hx).1
          obtain ⟨he, hsource⟩ := mem_outgoing.mp he
          obtain ⟨ρ, hρ, hpass⟩ := (Relation.eval_postImage hne _ ρ').mp hρ'
          rw [Diagram.eval_and, Bool.and_eq_true] at hρ
          exact ⟨ρ, hρ.1, e, he, hsource, rfl, hρ.2, hpass⟩
        · rintro ⟨ρ, hρ, e, he, hsource, rfl, hl, hpass⟩
          have hsrc : (states.and e.label).eval ρ = true := by
            rw [Diagram.eval_and, hρ, hl]
            rfl
          have hmem : (e.target, states.and e.label) ∈ sources :=
            List.mem_filter.mpr ⟨List.mem_map.mpr ⟨e, mem_outgoing.mpr ⟨he, hsource⟩, rfl⟩,
              by simp [Diagram.isFalse_eq_false hsrc]⟩
          exact ⟨_, List.mem_map.mpr ⟨_, hmem, rfl⟩, rfl,
            (Relation.eval_postImage hne _ ρ').mpr ⟨ρ, hsrc, hpass⟩⟩
      · rintro - ⟨⟩
    | backward =>
      cases hi : p.relation.preImage states with
      | error m => simp [hi, bind, Except.bind] at h
      | ok image =>
        simp only [hi, bind, Except.bind, pure, Except.pure] at h
        split_ifs at h with himage
        · cases h
          rw [Diagram.isFalse_iff] at himage
          refine ⟨[], rfl, fun hne q ρ' => ?_, by simp⟩
          constructor
          · rintro ⟨b, hb, -⟩
            cases hb
          · rintro ⟨ρ, hρ, e, he, htarget, hsource, hl, hpass⟩
            have := (Relation.eval_preImage hne hi ρ').mpr ⟨ρ, hρ, hpass⟩
            rw [himage ρ'] at this
            cases this
        · cases h
          refine ⟨(p.automaton.incoming (net.stateOf w)).map fun e => (e.source, image.and e.label),
            ?_, fun hne q ρ' => ?_, fun hne _ hlabels b hb => ?_⟩
          · rw [List.flatMap_map]
          · constructor
            · rintro ⟨b, hb, rfl, hρ'⟩
              obtain ⟨e, he, rfl⟩ := List.mem_map.mp hb
              obtain ⟨he, htarget⟩ := mem_incoming.mp he
              rw [Diagram.eval_and, Bool.and_eq_true] at hρ'
              obtain ⟨ρ, hρ, hpass⟩ := (Relation.eval_preImage hne hi ρ').mp hρ'.1
              exact ⟨ρ, hρ, e, he, htarget, rfl, hρ'.2, hpass⟩
            · rintro ⟨ρ, hρ, e, he, htarget, rfl, hl, hpass⟩
              have himg := (Relation.eval_preImage hne hi ρ').mpr ⟨ρ, hρ, hpass⟩
              refine ⟨_, List.mem_map.mpr ⟨e, mem_incoming.mpr ⟨he, htarget⟩, rfl⟩, rfl, ?_⟩
              rw [Diagram.eval_and, himg]
              exact hl
          · obtain ⟨e, he, rfl⟩ := List.mem_map.mp hb
            exact (Relation.avoidsNext_preImage hne hi).and
              (hlabels e (List.mem_filter.mp he).1)

theorem mem_propagate {packets : List net.Packet} {images : Nat}
    (h : net.propagate dir w states = .ok (packets, images)) {x : net.Packet} (hx : x ∈ packets) :
    x.states.implies (net.cubeOf x.target) = true := by
  obtain ⟨branches, rfl, -⟩ := propagate_eq_ok hnet h
  obtain ⟨b, -, hx⟩ := List.mem_flatMap.mp hx
  exact implies_cubeOf_of_mem_packets hnet hx

/-- The packets for a worker hold the points in its slice that are one step away. -/
theorem exists_mem_propagate (hne : p.relation.parts ≠ []) {packets : List net.Packet}
    {images : Nat} (h : net.propagate dir w states = .ok (packets, images)) {t : net.Id}
    {ρ' : Nat → Bool} : (∃ x ∈ packets, x.target = t ∧ x.states.eval ρ' = true) ↔
      (net.cubeOf t).eval ρ' = true ∧
        ∃ ρ, states.eval ρ = true ∧ p.Move dir (net.stateOf w, ρ) (net.stateOf t, ρ') := by
  obtain ⟨branches, rfl, hmoves, -⟩ := propagate_eq_ok hnet h
  rw [← hmoves hne]
  constructor
  · rintro ⟨x, hx, ht, hρ⟩
    obtain ⟨b, hb, hx⟩ := List.mem_flatMap.mp hx
    obtain ⟨hq, hs, hc⟩ := (exists_mem_packets hnet).mp ⟨x, hx, ht, hρ⟩
    exact ⟨hc, b, hb, hq, hs⟩
  · rintro ⟨hc, b, hb, hq, hs⟩
    obtain ⟨x, hx, ht, hρ⟩ := (exists_mem_packets hnet).mpr ⟨hq, hs, hc⟩
    exact ⟨x, List.mem_flatMap.mpr ⟨b, hb, hx⟩, ht, hρ⟩

theorem avoidsNext_of_mem_propagate (hne : p.relation.parts ≠ [])
    (hlabels : ∀ e ∈ p.automaton.edges, e.label.AvoidsNext p.relation.numVars)
    (hcubes : ∀ s, (net.cubes s).AvoidsNext p.relation.numVars) {packets : List net.Packet}
    {images : Nat} (h : net.propagate .backward w states = .ok (packets, images)) {x : net.Packet}
    (hx : x ∈ packets) : x.states.AvoidsNext p.relation.numVars := by
  obtain ⟨branches, rfl, -, havoids⟩ := propagate_eq_ok hnet h
  obtain ⟨b, hb, hx⟩ := List.mem_flatMap.mp hx
  obtain ⟨s, rfl, -⟩ := (mem_packets hnet).mp hx
  exact (havoids hne rfl hlabels b hb).and (hcubes s)

end Propagate
end SymbolicLtl.Network
