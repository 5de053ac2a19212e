import SymbolicLtl.Proofs.Diagram.Dependence
import SymbolicLtl.Relation.Basic

/-!
Images of sets under a relation. Quantifying a variable with the last part that depends on it is as
good as quantifying all variables at the end, so an image holds exactly the assignments that some
assignment in the set passes to.
-/
namespace SymbolicLtl

/-- The diagram variable holds a current value of one of `k` state variables. -/
def IsCurrent (k v : Nat) : Prop := v < 2 * k ∧ v % 2 = 0

def IsNext (k v : Nat) : Prop := v < 2 * k ∧ v % 2 = 1

theorem mem_currentVars {k v : Nat} : v ∈ (List.range k).map currentVar ↔ IsCurrent k v := by
  simp only [List.mem_map, List.mem_range, currentVar, IsCurrent]
  constructor
  · rintro ⟨i, hi, rfl⟩
    omega
  · intro h
    exact ⟨v / 2, by omega, by omega⟩

theorem mem_nextVars {k v : Nat} : v ∈ (List.range k).map nextVar ↔ IsNext k v := by
  simp only [List.mem_map, List.mem_range, nextVar, IsNext]
  constructor
  · rintro ⟨i, hi, rfl⟩
    omega
  · intro h
    exact ⟨v / 2, by omega, by omega⟩

/-- A set of states: only current values matter. -/
abbrev Diagram.OverCurrent {n : Nat} (a : Diagram n) (k : Nat) : Prop := a.DependsOnly (IsCurrent k)

abbrev Diagram.AvoidsNext {n : Nat} (a : Diagram n) (k : Nat) : Prop :=
  a.DependsOnly fun v => ¬ IsNext k v

theorem Diagram.OverCurrent.avoidsNext {n k : Nat} {a : Diagram n} (h : a.OverCurrent k) :
    a.AvoidsNext k :=
  h.mono fun v hv hn => by
    unfold IsCurrent at hv
    unfold IsNext at hn
    omega

namespace Stage

variable {n : Nat}

/-- Each variable is dropped only when no later part depends on it. -/
def Separated (stages : List (Stage n)) : Prop :=
  stages.Pairwise fun s t => ∀ v ∈ s.dropped, v ∉ t.part.support

theorem eval_applied (s : Stage n) (acc : Diagram n) (ρ : Nat → Bool) :
    (if acc.isFalse then acc else .andExist s.dropped acc s.part).eval ρ = true ↔
      ∃ σ, (∀ v, v ∉ s.dropped → σ v = ρ v) ∧ acc.eval σ = true ∧ s.part.eval σ = true := by
  split_ifs with h
  · have hfalse := acc.isFalse_iff.mp h
    simp [hfalse]
  · exact Diagram.eval_andExist _ _ _ _

/-- Dropping variables on the way asks for one assignment that suits all parts. -/
theorem eval_apply {stages : List (Stage n)} (h : Separated stages) (set : Diagram n)
    (ρ : Nat → Bool) : (apply stages set).eval ρ = true ↔
      ∃ σ, (∀ v, (∀ s ∈ stages, v ∉ s.dropped) → σ v = ρ v) ∧ set.eval σ = true ∧
        ∀ s ∈ stages, s.part.eval σ = true := by
  induction stages generalizing set with
  | nil =>
    constructor
    · intro he
      exact ⟨ρ, fun _ _ => rfl, he, by simp⟩
    · rintro ⟨σ, hσ, he, -⟩
      rwa [funext fun v => hσ v (by simp)] at he
  | cons s stages ih =>
    obtain ⟨hs, hrest⟩ := List.pairwise_cons.mp h
    rw [show apply (s :: stages) set = apply stages
      (if set.isFalse then set else .andExist s.dropped set s.part) from rfl, ih hrest]
    simp only [eval_applied]
    -- Later parts do not see what the first stage drops.
    have hlater : ∀ {σ τ : Nat → Bool}, (∀ v, v ∉ s.dropped → τ v = σ v) → ∀ t ∈ stages,
        t.part.eval τ = t.part.eval σ := by
      intro σ τ hτ t ht
      refine t.part.dependsOnly_support τ σ fun v hv => hτ v fun hd => hs t ht v hd hv
    constructor
    · rintro ⟨σ, hσ, ⟨τ, hτ, hset, hpart⟩, hparts⟩
      refine ⟨τ, fun v hv => ?_, hset, ?_⟩
      · simp only [List.mem_cons, forall_eq_or_imp] at hv
        rw [hτ v hv.1, hσ v hv.2]
      · simp only [List.mem_cons, forall_eq_or_imp]
        exact ⟨hpart, fun t ht => by rw [hlater hτ t ht, hparts t ht]⟩
    · rintro ⟨τ, hτ, hset, hparts⟩
      simp only [List.mem_cons, forall_eq_or_imp] at hτ hparts
      have hmix : ∀ v, v ∉ s.dropped → τ v = if v ∈ s.dropped then ρ v else τ v := by
        intro v hv
        rw [if_neg hv]
      refine ⟨fun v => if v ∈ s.dropped then ρ v else τ v, fun v hv => ?_,
        ⟨τ, hmix, hset, hparts.1⟩, fun t ht => ?_⟩
      · dsimp only
        split_ifs with hd
        · rfl
        · exact hτ v ⟨hd, hv⟩
      · rw [← hlater hmix t ht]
        exact hparts.2 t ht

/-- A search for the last use finds the place of a use, if there is one, and none lies behind it. -/
theorem foldl_lastUse (v : Nat) (l : List (List Nat)) (i last : Nat) :
    let found := (l.zipIdx i).foldl (fun last (support, k) =>
      if support.contains v then k else last) last
    (found = last ∨ ∃ j s, l[j]? = some s ∧ v ∈ s ∧ found = i + j) ∧
      ∀ j s, l[j]? = some s → v ∈ s → i + j ≤ found := by
  induction l generalizing i last with
  | nil => simp
  | cons s l ih =>
    obtain ⟨hfound, hle⟩ := ih (i + 1) (if s.contains v then i else last)
    simp only [List.zipIdx_cons, List.foldl_cons] at hfound hle ⊢
    have hhead : s.contains v = true → v ∈ s := by simp
    constructor
    · rcases hfound with hfirst | ⟨j, t, hj, hv, hplace⟩
      · by_cases hs : s.contains v
        · rw [if_pos hs] at hfirst ⊢
          exact .inr ⟨0, s, rfl, hhead hs, hfirst⟩
        · rw [if_neg hs] at hfirst ⊢
          exact .inl hfirst
      · exact .inr ⟨j + 1, t, hj, hv, by omega⟩
    · intro j t hj hv
      cases j with
      | zero =>
        have hst : s = t := by simpa using hj
        have hs : s.contains v = true := by simpa [hst] using hv
        rw [if_pos hs] at hfound ⊢
        rcases hfound with hfirst | ⟨j, -, -, -, hplace⟩ <;> omega
      | succ j =>
        have := hle j t (by simpa using hj) hv
        omega

theorem le_lastUse {supports : List (List Nat)} {v j : Nat} {s : List Nat}
    (hj : supports[j]? = some s) (hv : v ∈ s) : j ≤ lastUse supports v := by
  have := (foldl_lastUse v supports 0 0).2 j s hj hv
  simpa [lastUse] using this

theorem exists_mem_lastUse (supports : List (List Nat)) (v : Nat) : lastUse supports v = 0 ∨
    ∃ s, supports[lastUse supports v]? = some s ∧ v ∈ s := by
  rcases (foldl_lastUse v supports 0 0).1 with h0 | ⟨j, s, hj, hv, hplace⟩
  · exact .inl h0
  · have hlast : lastUse supports v = j := by rw [lastUse, hplace, Nat.zero_add]
    exact .inr ⟨s, by rw [hlast]; exact hj, hv⟩

theorem lastUse_lt {supports : List (List Nat)} (h : supports ≠ []) (v : Nat) :
    lastUse supports v < supports.length := by
  rcases exists_mem_lastUse supports v with h0 | ⟨s, hs, -⟩
  · rw [h0]
    exact List.length_pos_iff.mpr h
  · exact (List.getElem?_eq_some_iff.mp hs).1

theorem getElem?_schedule {parts : List (Diagram n)} {vars : List Nat} {k : Nat} {s : Stage n} :
    (schedule parts vars)[k]? = some s ↔ parts[k]? = some s.part ∧
      s.dropped = vars.filter fun v => lastUse (parts.map (·.support)) v == k := by
  simp only [schedule, List.getElem?_map, List.getElem?_zipIdx, Nat.zero_add, Option.map_map,
    Option.map_eq_some_iff]
  constructor
  · rintro ⟨p, hp, rfl⟩
    exact ⟨hp, rfl⟩
  · rintro ⟨hp, hd⟩
    exact ⟨s.part, hp, by rw [Function.comp_apply, ← hd]⟩

theorem mem_schedule {parts : List (Diagram n)} {vars : List Nat} {s : Stage n} :
    s ∈ schedule parts vars ↔ ∃ k, parts[k]? = some s.part ∧
      s.dropped = vars.filter fun v => lastUse (parts.map (·.support)) v == k := by
  simp only [List.mem_iff_getElem?, getElem?_schedule]

/-- A variable is dropped where it is used last. -/
theorem mem_dropped_iff {parts : List (Diagram n)} {vars : List Nat} {k v : Nat} {s : Stage n}
    (h : (schedule parts vars)[k]? = some s) :
    v ∈ s.dropped ↔ v ∈ vars ∧ lastUse (parts.map (·.support)) v = k := by
  rw [(getElem?_schedule.mp h).2, List.mem_filter, beq_iff_eq]

theorem getElem?_support {parts : List (Diagram n)} {vars : List Nat} {k : Nat} {s : Stage n}
    (h : (schedule parts vars)[k]? = some s) :
    (parts.map (·.support))[k]? = some s.part.support := by
  rw [List.getElem?_map, (getElem?_schedule.mp h).1]
  rfl

theorem separated_schedule (parts : List (Diagram n)) (vars : List Nat) :
    Separated (schedule parts vars) := by
  refine List.pairwise_iff_getElem.mpr fun i j hi hj hij v hv hsup => ?_
  have hlast := ((mem_dropped_iff (List.getElem?_eq_getElem hi)).mp hv).2
  have hle := le_lastUse (getElem?_support (List.getElem?_eq_getElem hj)) hsup
  omega

theorem exists_lastStage {parts : List (Diagram n)} (hne : parts ≠ []) {vars : List Nat} {v : Nat}
    (hv : v ∈ vars) : ∃ s, (schedule parts vars)[lastUse (parts.map (·.support)) v]? = some s ∧
      v ∈ s.dropped := by
  have hsupports : parts.map (·.support) ≠ [] := by simpa using hne
  have hlt : lastUse (parts.map (·.support)) v < (schedule parts vars).length := by
    simpa [schedule] using lastUse_lt hsupports v
  have hstage := List.getElem?_eq_getElem hlt
  exact ⟨_, hstage, (mem_dropped_iff hstage).mpr ⟨hv, rfl⟩⟩

/-- Every variable is dropped by some stage, and no others are. -/
theorem exists_mem_dropped {parts : List (Diagram n)} (hne : parts ≠ []) {vars : List Nat}
    {v : Nat} : (∃ s ∈ schedule parts vars, v ∈ s.dropped) ↔ v ∈ vars := by
  constructor
  · rintro ⟨s, hs, hv⟩
    obtain ⟨k, hk⟩ := List.mem_iff_getElem?.mp hs
    exact ((mem_dropped_iff hk).mp hv).1
  · intro hv
    obtain ⟨s, hs, hdropped⟩ := exists_lastStage hne hv
    exact ⟨s, List.mem_of_getElem? hs, hdropped⟩

theorem forall_mem_schedule {parts : List (Diagram n)} {vars : List Nat} {P : Diagram n → Prop} :
    (∀ s ∈ schedule parts vars, P s.part) ↔ ∀ part ∈ parts, P part := by
  simp only [mem_schedule]
  constructor
  · intro h part hp
    obtain ⟨k, hk⟩ := List.mem_iff_getElem?.mp hp
    exact h ⟨part, _⟩ ⟨k, hk, rfl⟩
  · rintro h s ⟨k, hk, -⟩
    exact h s.part (List.mem_of_getElem? hk)

/-- A schedule quantifies all its variables in the conjunction of all parts. -/
theorem eval_apply_schedule {parts : List (Diagram n)} (hne : parts ≠ []) (vars : List Nat)
    (set : Diagram n) (ρ : Nat → Bool) : (apply (schedule parts vars) set).eval ρ = true ↔
      ∃ σ, (∀ v, v ∉ vars → σ v = ρ v) ∧ set.eval σ = true ∧
        ∀ part ∈ parts, part.eval σ = true := by
  rw [eval_apply (separated_schedule parts vars)]
  refine exists_congr fun σ => and_congr ?_ (and_congr_right fun _ => ?_)
  · refine forall_congr' fun v => imp_congr ?_ Iff.rfl
    have hmem : (∃ s ∈ schedule parts vars, v ∈ s.dropped) ↔ v ∈ vars := exists_mem_dropped hne
    rw [← hmem]
    push Not
    rfl
  · exact forall_mem_schedule (P := fun part => part.eval σ = true)

end Stage

namespace Relation

variable {n : Nat}

def Holds (r : Relation n) (σ : Nat → Bool) : Prop := ∀ part ∈ r.parts, part.eval σ = true

/-- An assignment of a set passes to an assignment of its image. -/
def Passes (r : Relation n) : Direction → (ρ ρ' : Nat → Bool) → Prop
  | .forward, ρ, ρ' =>
    (∀ v, ¬ IsCurrent r.numVars v → ρ v = ρ' (r.toCurrent.image v)) ∧ r.Holds ρ
  | .backward, ρ, ρ' =>
    ∃ σ, (∀ v, ¬ IsNext r.numVars v → σ v = ρ' v) ∧ r.Holds σ ∧
      ρ = fun v => σ (r.toNext.image v)

theorem eval_postImage {r : Relation n} (hne : r.parts ≠ []) (s : Diagram n) (ρ' : Nat → Bool) :
    (r.postImage s).eval ρ' = true ↔ ∃ ρ, s.eval ρ = true ∧ r.Passes .forward ρ ρ' := by
  unfold postImage
  split_ifs with h
  · have hfalse := s.isFalse_iff.mp h
    simp [hfalse]
  · rw [Diagram.eval_relabel, r.forward_eq, Stage.eval_apply_schedule hne]
    simp only [mem_currentVars]
    refine exists_congr fun ρ => ?_
    simp only [Passes, Holds]
    tauto

theorem eval_preImage {r : Relation n} (hne : r.parts ≠ []) {s t : Diagram n}
    (h : r.preImage s = .ok t) (ρ' : Nat → Bool) :
    t.eval ρ' = true ↔ ∃ ρ, s.eval ρ = true ∧ r.Passes .backward ρ ρ' := by
  unfold preImage at h
  split_ifs at h with hs
  · cases h
    have hfalse := s.isFalse_iff.mp hs
    simp [hfalse]
  · cases hr : s.rename r.toNext with
    | error e => simp [hr, bind, Except.bind] at h
    | ok s' =>
      simp only [hr, bind, Except.bind, pure, Except.pure, Except.ok.injEq] at h
      subst h
      rw [r.backward_eq, Stage.eval_apply_schedule hne]
      simp only [mem_nextVars, Diagram.eval_rename hr]
      constructor
      · rintro ⟨σ, hσ, hs', hparts⟩
        exact ⟨_, hs', σ, hσ, hparts, rfl⟩
      · rintro ⟨ρ, hρ, σ, hσ, hparts, rfl⟩
        exact ⟨σ, hσ, hρ, hparts⟩

/-- Reading next values instead of current ones keeps the order of other variables. -/
theorem toNext_mono (r : Relation n) {v w : Nat} (hw : ¬ IsNext r.numVars w) (h : v < w) :
    r.toNext.image v < r.toNext.image w := by
  unfold IsNext at hw
  simp only [toNext]
  split_ifs <;> omega

theorem exists_preImage (r : Relation n) {s : Diagram n} (hs : s.AvoidsNext r.numVars) :
    ∃ t, r.preImage s = .ok t := by
  obtain ⟨s', hs'⟩ := Diagram.exists_rename hs fun _ _ _ => r.toNext_mono
  unfold preImage
  split_ifs
  · exact ⟨s, rfl⟩
  · exact ⟨Stage.apply r.backward s', by rw [hs']; rfl⟩

/-- Only a clash of variables keeps a set from having predecessors. -/
theorem preImage_eq_error {r : Relation n} {s : Diagram n} {m : Misuse}
    (h : r.preImage s = .error m) : m = .renameClash := by
  unfold preImage at h
  split_ifs at h
  cases hr : s.rename r.toNext with
  | error e =>
    simp only [hr, bind, Except.bind, Except.error.injEq] at h
    subst h
    unfold Diagram.rename at hr
    split at hr
    · cases hr
    · exact (Except.error.inj hr).symm
  | ok s' => simp [hr, bind, Except.bind, pure, Except.pure] at h

/-- Predecessors do not mention next values. -/
theorem avoidsNext_preImage {r : Relation n} (hne : r.parts ≠ []) {s t : Diagram n}
    (h : r.preImage s = .ok t) : t.AvoidsNext r.numVars := by
  intro ρ σ hρσ
  have hiff : t.eval ρ = true ↔ t.eval σ = true := by
    rw [eval_preImage hne h, eval_preImage hne h]
    refine exists_congr fun ρ' => and_congr_right fun _ => ?_
    simp only [Passes]
    refine exists_congr fun τ => and_congr_left fun _ => ?_
    refine forall_congr' fun v => imp_congr_right fun hv => ?_
    rw [hρσ v hv]
  exact Bool.eq_iff_iff.mpr hiff

theorem partsOf_eq_ok {method : Method} {constraints parts : List (Diagram n)}
    (h : partsOf method constraints = .ok parts) :
    parts ≠ [] ∧ ∀ σ, (∀ part ∈ parts, part.eval σ = true) ↔
      ∀ c ∈ constraints, c.eval σ = true := by
  cases method with
  | monolithic =>
    have hparts : [constraints.foldl .and (.const true)] = parts := Except.ok.inj h
    have hfold : ∀ (σ : Nat → Bool) (l : List (Diagram n)) (acc : Diagram n),
        (l.foldl .and acc).eval σ = true ↔ acc.eval σ = true ∧ ∀ c ∈ l, c.eval σ = true := by
      intro σ l
      induction l with
      | nil => simp
      | cons c l ih =>
        intro acc
        rw [List.foldl_cons, ih, Diagram.eval_and, Bool.and_eq_true]
        simp only [List.mem_cons, forall_eq_or_imp, and_assoc]
    subst hparts
    refine ⟨by simp, fun σ => ?_⟩
    simp [hfold]
  | partition =>
    simp only [partsOf] at h
    have hdropped : ∀ (σ : Nat → Bool), (∀ c ∈ constraints.filter fun c => !c.isTrue,
        c.eval σ = true) ↔ ∀ c ∈ constraints, c.eval σ = true := by
      intro σ
      simp only [List.mem_filter, Bool.not_eq_true']
      refine forall_congr' fun c => ?_
      constructor
      · intro hc hmem
        cases ht : c.isTrue with
        | true => rw [(Diagram.isConst_iff c true).mp ht, Diagram.eval_const]
        | false => exact hc ⟨hmem, ht⟩
      · intro hc hmem
        exact hc hmem.1
    split at h
    · next hnil =>
      have hparts : [Diagram.const true] = parts := Except.ok.inj h
      subst hparts
      refine ⟨by simp, fun σ => ?_⟩
      rw [← hdropped σ, hnil]
      simp
    · next hcons =>
      have hparts := Except.ok.inj h
      subst hparts
      exact ⟨hcons, hdropped⟩
  | other code => cases h

theorem exists_partsOf {method : Method} (h : ∀ code, method ≠ .other code)
    (constraints : List (Diagram n)) : ∃ parts, partsOf method constraints = .ok parts := by
  cases method with
  | monolithic => exact ⟨_, rfl⟩
  | partition =>
    simp only [partsOf]
    split
    · exact ⟨_, rfl⟩
    · exact ⟨_, rfl⟩
  | other code => exact absurd rfl (h code)

theorem wordOf_le {x : Int} (h : 0 ≤ x) : wordOf x ≤ x := by
  rw [wordOf, Int.bmod_def]
  split <;> omega

theorem not_lt_wordOf {k : Nat} (hfits : 2 * k ≤ n) : ¬ (n : Int) < wordOf (2 * k) := by
  have hword := wordOf_le (x := 2 * (k : Int)) (by omega)
  omega

theorem make_eq {k : Nat} (hfits : 2 * k ≤ n) (init : Diagram n) {method : Method}
    {constraints parts : List (Diagram n)} (hparts : partsOf method constraints = .ok parts) :
    make k init constraints method = .ok (ofParts k hfits method init parts) := by
  have hcount : 0 ≤ (k : Int) ∧ 2 * (k : Int) ≤ n := by omega
  unfold make
  simp only [not_lt_wordOf hfits, if_false, hparts, Attempt.ofRefusal, Except.mapError, bind,
    Except.bind]
  rw [dif_pos hcount]
  rfl

theorem make_eq_refused {k : Nat} (hfits : 2 * k ≤ n) (init : Diagram n) {method : Method}
    {constraints : List (Diagram n)} {e : RelationError}
    (hparts : partsOf method constraints = .error e) :
    make k init constraints method = .error (.refused e) := by
  unfold make
  simp only [not_lt_wordOf hfits, if_false, hparts, Attempt.ofRefusal, Except.mapError, bind,
    Except.bind]

theorem make_eq_ok {numVars : Int} {init : Diagram n} {constraints : List (Diagram n)}
    {method : Method} {r : Relation n} (h : make numVars init constraints method = .ok r) :
    r.numVars = numVars.toNat ∧ r.init = init ∧ partsOf method constraints = .ok r.parts := by
  unfold make at h
  by_cases hlow : n < wordOf (2 * numVars)
  · simp [hlow, Attempt.refuse, bind, Except.bind] at h
  · cases hp : partsOf method constraints with
    | error e => simp [hlow, hp, Attempt.ofRefusal, Except.mapError, bind, Except.bind] at h
    | ok parts =>
      simp only [hlow, hp, Attempt.ofRefusal, Except.mapError, bind, Except.bind, if_false] at h
      split_ifs at h
      cases h
      exact ⟨rfl, rfl, rfl⟩

theorem parts_ne_nil {numVars : Int} {init : Diagram n} {constraints : List (Diagram n)}
    {method : Method} {r : Relation n} (h : make numVars init constraints method = .ok r) :
    r.parts ≠ [] := (partsOf_eq_ok (make_eq_ok h).2.2).1

/-- The parts of a relation hold where its constraints do. -/
theorem holds_iff {numVars : Int} {init : Diagram n} {constraints : List (Diagram n)}
    {method : Method} {r : Relation n} (h : make numVars init constraints method = .ok r)
    (σ : Nat → Bool) : r.Holds σ ↔ ∀ c ∈ constraints, c.eval σ = true :=
  (partsOf_eq_ok (make_eq_ok h).2.2).2 σ

def toggle : Relation 2 :=
  .ofParts 1 (by decide) .monolithic (.const true)
    [(Diagram.const true).and ((Diagram.literal 0 true).xor (Diagram.literal 1 true))]

theorem make_toggle : make 1 (.const true)
    [(Diagram.literal 0 true).xor (Diagram.literal 1 true)] .monolithic = .ok toggle := rfl

end Relation
end SymbolicLtl
