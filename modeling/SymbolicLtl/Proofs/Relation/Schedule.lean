import SymbolicLtl.Proofs.Diagram.Values
import SymbolicLtl.Proofs.Relation.States

/-!
Which stage of a schedule drops a variable. The variables of a diagram are those that its function
depends on, so a variable is dropped with the last part that depends on it and with no other.
-/
namespace SymbolicLtl

namespace Stage

variable {n : Nat}

/-- The place of the last use is a use or the first place of all, and there is no use behind it. -/
theorem lastUse_eq_iff {supports : List (List Nat)} {v k : Nat} {s : List Nat}
    (hk : supports[k]? = some s) : lastUse supports v = k ↔
      (k = 0 ∨ v ∈ s) ∧ ∀ later ∈ supports.drop (k + 1), v ∉ later := by
  constructor
  · rintro rfl
    constructor
    · rcases exists_mem_lastUse supports v with h0 | ⟨t, ht, hv⟩
      · exact .inl h0
      · obtain rfl : t = s := Option.some.inj (ht.symm.trans hk)
        exact .inr hv
    · intro later hlater hv
      obtain ⟨j, hj⟩ := List.mem_iff_getElem?.mp hlater
      rw [List.getElem?_drop] at hj
      have hle := le_lastUse hj hv
      omega
  · rintro ⟨hfirst, hlater⟩
    have hge : k ≤ lastUse supports v := by
      rcases hfirst with rfl | hv
      · exact Nat.zero_le _
      · exact le_lastUse hk hv
    rcases exists_mem_lastUse supports v with h0 | ⟨t, ht, hv⟩
    · omega
    · by_contra hne
      have hbehind : k + 1 + (lastUse supports v - (k + 1)) = lastUse supports v := by omega
      refine hlater t (List.mem_iff_getElem?.mpr ⟨lastUse supports v - (k + 1), ?_⟩) hv
      rw [List.getElem?_drop, hbehind]
      exact ht

/-- Stages that drop every variable once, with the last part that depends on it; a variable that no
part depends on is dropped with the first one. -/
structure Scheduled (parts : List (Diagram n)) (vars : List Nat) (stages : List (Stage n)) :
    Prop where
  map_part : stages.map (·.part) = parts
  mem_dropped : ∀ (k : Nat) (s : Stage n), stages[k]? = some s → ∀ v, v ∈ s.dropped ↔
    v ∈ vars ∧ (k = 0 ∨ s.part.DependsOn v) ∧ ∀ later ∈ parts.drop (k + 1), ¬ later.DependsOn v
  existsUnique : ∀ v ∈ vars, ∃! k : Nat, ∃ s : Stage n, stages[k]? = some s ∧ v ∈ s.dropped

theorem scheduled_schedule {parts : List (Diagram n)} (hne : parts ≠ []) (vars : List Nat) :
    Scheduled parts vars (schedule parts vars) where
  map_part := by
    rw [schedule, List.map_map]
    exact List.zipIdx_map_fst 0 parts
  mem_dropped := by
    intro k s hs v
    rw [mem_dropped_iff hs, lastUse_eq_iff (getElem?_support hs), ← List.map_drop,
      List.forall_mem_map]
    simp only [Diagram.mem_support_iff]
  existsUnique := by
    intro v hv
    refine ⟨_, exists_lastStage hne hv, ?_⟩
    rintro k ⟨s, hs, hdropped⟩
    exact ((mem_dropped_iff hs).mp hdropped).2.symm

end Stage

namespace Relation

open Stage (Scheduled)

variable {n : Nat}

theorem scheduled_of_make {numVars : Int} {init : Diagram n} {constraints : List (Diagram n)}
    {method : Method} {r : Relation n} (h : make numVars init constraints method = .ok r) :
    Scheduled r.parts ((List.range r.numVars).map currentVar) r.forward ∧
      Scheduled r.parts ((List.range r.numVars).map nextVar) r.backward := by
  have hne := parts_ne_nil h
  rw [r.forward_eq, r.backward_eq]
  exact ⟨Stage.scheduled_schedule hne _, Stage.scheduled_schedule hne _⟩

/-- The variables of a value, however it was made, are listed in increasing order and are exactly those
that its function depends on. So a schedule of any parts drops each of its variables in one stage: no
later part depends on it, and the part itself does unless it is the first. Such are the two schedules
of every relation, for the current and for the next values. -/
theorem schedule_by_dependence :
    (∀ v : Value, ∃ vars, v.owner.support v = .ok vars ∧ vars.Pairwise (· < ·) ∧
      ∀ i, i ∈ vars ↔ v.diagram.DependsOn i) ∧
    (∀ (parts : List (Diagram n)) (vars : List Nat), parts ≠ [] →
      Scheduled parts vars (Stage.schedule parts vars)) ∧
    ∀ (numVars : Int) (init : Diagram n) (constraints : List (Diagram n)) (method : Method)
      (r : Relation n), make numVars init constraints method = .ok r →
      Scheduled r.parts ((List.range r.numVars).map currentVar) r.forward ∧
        Scheduled r.parts ((List.range r.numVars).map nextVar) r.backward := by
  refine ⟨fun v => ?_, fun parts vars hne => Stage.scheduled_schedule hne vars, ?_⟩
  · exact ⟨_, Manager.support_own v, v.diagram.pairwise_support, fun i => Diagram.mem_support_iff⟩
  · intro numVars init constraints method r hmake
    exact scheduled_of_make hmake

/-- What cancels out is no variable of a value. When two variables take each other's value, the current
value of the second one is dropped with the first part, since only the other part is left and does not
depend on it, and the current value of the first one is dropped with the second part. -/
theorem schedule_exchange :
    (∃ vars, Manager.support ⟨0, 4⟩ ⟨⟨0, 4⟩, ((Diagram.var 0).xor (.var 2)).xor (.var 2)⟩ = .ok vars ∧
      ∀ i, i ∈ vars ↔ i = 0) ∧
    ∃ r first second, make 2 (.const true) exchange .partition = .ok r ∧
      r.forward = [first, second] ∧ first.dropped = [2] ∧ ¬ second.part.DependsOn 2 ∧
      second.dropped = [0] ∧ second.part.DependsOn 0 := by
  obtain ⟨hsupport, -, hscheduled⟩ := @schedule_by_dependence 4
  constructor
  · obtain ⟨vars, hvars, -, hmem⟩ :=
      hsupport ⟨⟨0, 4⟩, ((Diagram.var 0).xor (.var 2)).xor (.var 2)⟩
    refine ⟨vars, hvars, fun i => ?_⟩
    rw [hmem]
    by_cases hi : i = 0
    · simp [Diagram.DependsOn, Tree.update, hi]
    · simp [Diagram.DependsOn, Tree.update, hi, Ne.symm hi]
  · have hmake : make 2 (.const true) exchange .partition =
        .ok (ofParts 2 (by decide) .partition (.const true) exchange) := rfl
    obtain ⟨hforward, -⟩ := hscheduled _ _ _ _ _ hmake
    have hstages : (ofParts 2 (by decide) .partition (.const true) exchange).forward =
        [⟨exchange[0], [2]⟩, ⟨exchange[1], [0]⟩] := rfl
    refine ⟨_, _, _, hmake, hstages, rfl, ?_, rfl, ?_⟩
    · have hfirst := (hforward.mem_dropped 0 _ (by rw [hstages]; rfl) 2).mp List.mem_cons_self
      exact hfirst.2.2 _ List.mem_cons_self
    · have hsecond := (hforward.mem_dropped 1 _ (by rw [hstages]; rfl) 0).mp List.mem_cons_self
      exact hsecond.2.1.resolve_left Nat.one_ne_zero

end Relation
end SymbolicLtl
