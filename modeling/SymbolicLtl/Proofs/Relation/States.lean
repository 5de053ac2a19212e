import SymbolicLtl.Proofs.Relation.Image

/-!
States of a system: values of its variables. Sets over current values are sets of states, and the
images of such a set are its successors and its predecessors, whatever the order of the constraints
and however they are put together.
-/
namespace SymbolicLtl

/-- The values of `k` state variables. -/
abbrev State (k : Nat) := Fin k → Bool

theorem isCurrent_iff {k v : Nat} : IsCurrent k v ↔ ∃ i : Fin k, v = currentVar i := by
  unfold IsCurrent currentVar
  constructor
  · intro h
    exact ⟨⟨v / 2, by omega⟩, by dsimp only; omega⟩
  · rintro ⟨i, rfl⟩
    omega

theorem isNext_iff {k v : Nat} : IsNext k v ↔ ∃ i : Fin k, v = nextVar i := by
  unfold IsNext nextVar
  constructor
  · intro h
    exact ⟨⟨v / 2, by omega⟩, by dsimp only; omega⟩
  · rintro ⟨i, rfl⟩
    omega

theorem isCurrent_currentVar {k : Nat} (i : Fin k) : IsCurrent k (currentVar i) :=
  isCurrent_iff.mpr ⟨i, rfl⟩

theorem isNext_nextVar {k : Nat} (i : Fin k) : IsNext k (nextVar i) := isNext_iff.mpr ⟨i, rfl⟩

theorem exists_var {k v : Nat} (hv : v < 2 * k) :
    ∃ i : Fin k, v = currentVar i ∨ v = nextVar i := by
  unfold currentVar nextVar
  exact ⟨⟨v / 2, by omega⟩, by dsimp only; omega⟩

theorem not_isCurrent_nextVar {k : Nat} (i : Fin k) : ¬ IsCurrent k (nextVar i) := by
  unfold IsCurrent nextVar
  omega

theorem not_isNext_currentVar {k : Nat} (i : Fin k) : ¬ IsNext k (currentVar i) := by
  unfold IsNext currentVar
  omega

namespace State

variable {k : Nat}

/-- The assignment of current and next values to the state variables; other variables are false. -/
def pair (s s' : State k) : Nat → Bool := fun v =>
  if h : v / 2 < k then if v % 2 = 0 then s ⟨v / 2, h⟩ else s' ⟨v / 2, h⟩ else false

def current (k : Nat) (ρ : Nat → Bool) : State k := fun i => ρ (currentVar i)

@[simp] theorem pair_currentVar (s s' : State k) (i : Fin k) : s.pair s' (currentVar i) = s i := by
  simp [pair, currentVar]

@[simp] theorem pair_nextVar (s s' : State k) (i : Fin k) : s.pair s' (nextVar i) = s' i := by
  have hdiv : (2 * i.val + 1) / 2 = i.val := by omega
  simp [pair, nextVar, hdiv]

@[simp] theorem current_pair (s s' : State k) : current k (s.pair s') = s := by
  funext i
  simp [current]

end State

namespace Diagram

variable {n k : Nat}

def HoldsAt (a : Diagram n) (s : State k) : Prop := a.eval (s.pair s) = true

theorem OverCurrent.eval_eq_true {a : Diagram n} (ha : a.OverCurrent k) (ρ : Nat → Bool) :
    a.eval ρ = true ↔ a.HoldsAt (State.current k ρ) := by
  rw [HoldsAt, ha ρ ((State.current k ρ).pair (State.current k ρ)) fun v hv => ?_]
  obtain ⟨i, rfl⟩ := isCurrent_iff.mp hv
  simp [State.current]

theorem states_of_eval {a : Diagram n} {P : State k → Prop}
    (h : ∀ ρ, a.eval ρ = true ↔ P (State.current k ρ)) :
    a.OverCurrent k ∧ ∀ s : State k, a.HoldsAt s ↔ P s := by
  constructor
  · intro ρ σ hρσ
    have hcurrent : State.current k ρ = State.current k σ :=
      funext fun i => hρσ _ (isCurrent_currentVar i)
    rw [Bool.eq_iff_iff, h, h, hcurrent]
  · intro s
    rw [HoldsAt, h, State.current_pair]

/-- Sets of states are equal when they hold the same states. -/
theorem OverCurrent.eq_of_holdsAt {a b : Diagram n} (ha : a.OverCurrent k) (hb : b.OverCurrent k)
    (h : ∀ s : State k, a.HoldsAt s ↔ b.HoldsAt s) : a = b := by
  apply ext
  intro ρ
  rw [Bool.eq_iff_iff, ha.eval_eq_true, hb.eval_eq_true]
  exact h _

end Diagram

/-- Two states in succession that all constraints allow. -/
def Allowed {n k : Nat} (constraints : List (Diagram n)) (s s' : State k) : Prop :=
  ∀ c ∈ constraints, c.eval (s.pair s') = true

namespace Relation

variable {n : Nat}

def Next (r : Relation n) (s s' : State r.numVars) : Prop := r.Holds (s.pair s')

def NextTo (r : Relation n) (dir : Direction) (s s' : State r.numVars) : Prop :=
  match dir with
  | .forward => r.Next s s'
  | .backward => r.Next s' s

@[simp] theorem toCurrent_nextVar (r : Relation n) (i : Fin r.numVars) :
    r.toCurrent.image (nextVar i) = currentVar i := by
  simp [toCurrent, nextVar, currentVar, show 2 * i.val + 1 < 2 * r.numVars by omega]

@[simp] theorem toNext_currentVar (r : Relation n) (i : Fin r.numVars) :
    r.toNext.image (currentVar i) = nextVar i := by
  simp [toNext, nextVar, currentVar]

structure OverStates (r : Relation n) : Prop where
  parts_ne_nil : r.parts ≠ []
  holds_congr : ∀ σ τ, (∀ v, v < 2 * r.numVars → σ v = τ v) → r.Holds σ → r.Holds τ

/-- Assignments that pass to one another have states in succession. -/
theorem Passes.nextTo {r : Relation n} (hr : r.OverStates) {dir : Direction} {ρ ρ' : Nat → Bool}
    (h : r.Passes dir ρ ρ') : r.NextTo dir (State.current _ ρ) (State.current _ ρ') := by
  cases dir with
  | forward =>
    obtain ⟨hpass, hholds⟩ := h
    refine hr.holds_congr _ _ (fun v hv => ?_) hholds
    obtain ⟨i, rfl | rfl⟩ := exists_var hv
    · simp [State.current]
    · rw [hpass _ (not_isCurrent_nextVar i)]
      simp [State.current]
  | backward =>
    obtain ⟨σ, hσ, hholds, rfl⟩ := h
    refine hr.holds_congr _ _ (fun v hv => ?_) hholds
    obtain ⟨i, rfl | rfl⟩ := exists_var hv
    · rw [hσ _ (not_isNext_currentVar i)]
      simp [State.current]
    · simp [State.current]

/-- A state before that of an assignment has an assignment that passes to it. -/
theorem NextTo.exists_passes {r : Relation n} (hr : r.OverStates) {dir : Direction}
    {s : State r.numVars} {ρ' : Nat → Bool} (h : r.NextTo dir s (State.current _ ρ')) :
    ∃ ρ, State.current _ ρ = s ∧ r.Passes dir ρ ρ' := by
  classical
  cases dir with
  | forward =>
    -- Current values are those of the state that is left, all others those of the one entered.
    let ρ : Nat → Bool := fun v =>
      if IsCurrent r.numVars v then s.pair s v else ρ' (r.toCurrent.image v)
    refine ⟨ρ, ?_, fun v hv => if_neg hv, hr.holds_congr _ _ (fun v hv => ?_) h⟩
    · funext i
      simp [State.current, ρ, isCurrent_currentVar i]
    · obtain ⟨i, rfl | rfl⟩ := exists_var hv
      · simp [ρ, isCurrent_currentVar i]
      · simp [ρ, not_isCurrent_nextVar, State.current]
  | backward =>
    -- Next values are those of the state that is entered, all others those of the assignment left.
    let σ : Nat → Bool := fun v => if IsNext r.numVars v then s.pair s v else ρ' v
    refine ⟨fun v => σ (r.toNext.image v), ?_, σ, fun v hv => if_neg hv,
      hr.holds_congr _ _ (fun v hv => ?_) h, rfl⟩
    · funext i
      simp [State.current, σ, isNext_nextVar i]
    · obtain ⟨i, rfl | rfl⟩ := exists_var hv
      · simp [σ, not_isNext_currentVar, State.current]
      · simp [σ, isNext_nextVar i]

theorem eval_image {r : Relation n} (hne : r.parts ≠ []) {dir : Direction} {s t : Diagram n}
    (h : r.image dir s = .ok t) (ρ' : Nat → Bool) :
    t.eval ρ' = true ↔ ∃ ρ, s.eval ρ = true ∧ r.Passes dir ρ ρ' := by
  cases dir with
  | forward =>
    cases h
    exact eval_postImage hne s ρ'
  | backward => exact eval_preImage hne h ρ'

/-- A set of states has an image, which is the set of the states next to it. -/
theorem exists_image_states {r : Relation n} (hr : r.OverStates) {s : Diagram n}
    (hs : s.OverCurrent r.numVars) (dir : Direction) :
    ∃ t, r.image dir s = .ok t ∧ t.OverCurrent r.numVars ∧
      ∀ y : State r.numVars, t.HoldsAt y ↔ ∃ x, s.HoldsAt x ∧ r.NextTo dir x y := by
  have himage : ∃ t, r.image dir s = .ok t := by
    cases dir with
    | forward => exact ⟨_, rfl⟩
    | backward => exact r.exists_preImage hs.avoidsNext
  obtain ⟨t, ht⟩ := himage
  refine ⟨t, ht, Diagram.states_of_eval fun ρ' => ?_⟩
  rw [eval_image hr.parts_ne_nil ht]
  constructor
  · rintro ⟨ρ, hρ, hpass⟩
    exact ⟨_, (hs.eval_eq_true ρ).mp hρ, hpass.nextTo hr⟩
  · rintro ⟨x, hx, hnext⟩
    obtain ⟨ρ, rfl, hpass⟩ := hnext.exists_passes hr
    exact ⟨ρ, (hs.eval_eq_true ρ).mpr hx, hpass⟩

theorem toCurrent_mono (r : Relation n) {v w : Nat} (hv : ¬ IsCurrent r.numVars v)
    (hw : ¬ IsCurrent r.numVars w) (h : v < w) : r.toCurrent.image v < r.toCurrent.image w := by
  unfold IsCurrent at hv hw
  simp only [toCurrent]
  split_ifs <;> omega

/-- The successors are found by renaming next to current values. No current value is left then, so that
no two tests get the same variable. -/
theorem rename_toCurrent {r : Relation n} (hne : r.parts ≠ []) (s : Diagram n) :
    (Stage.apply r.forward s).rename r.toCurrent = .ok (r.postImage s) := by
  have heval : ∀ ρ, (Stage.apply r.forward s).eval ρ = true ↔
      ∃ σ, (∀ v, ¬ IsCurrent r.numVars v → σ v = ρ v) ∧ s.eval σ = true ∧ r.Holds σ := by
    intro ρ
    rw [r.forward_eq, Stage.eval_apply_schedule hne]
    simp only [mem_currentVars]
    rfl
  have hleft : (Stage.apply r.forward s).DependsOnly fun v => ¬ IsCurrent r.numVars v := by
    intro ρ ρ' hρ
    rw [Bool.eq_iff_iff, heval, heval]
    refine exists_congr fun σ => and_congr_left fun _ => ?_
    exact forall_congr' fun v => imp_congr_right fun hv => by rw [hρ v hv]
  obtain ⟨t, ht⟩ := Diagram.exists_rename hleft fun _ _ => r.toCurrent_mono
  have hpost : t = r.postImage s := by
    apply Diagram.ext
    intro ρ
    rw [Bool.eq_iff_iff, Diagram.eval_rename ht, heval, eval_postImage hne]
    refine exists_congr fun σ => ?_
    simp only [Passes]
    tauto
  rw [ht, hpost]

theorem overStates_of_make {numVars : Int} {init : Diagram n} {constraints : List (Diagram n)}
    {method : Method} {r : Relation n} (h : make numVars init constraints method = .ok r)
    (hconstraints : ∀ c ∈ constraints, c.DependsOnly fun v => v < 2 * r.numVars) :
    r.OverStates := by
  refine ⟨parts_ne_nil h, fun σ τ hστ hσ => ?_⟩
  rw [holds_iff h] at hσ ⊢
  intro c hc
  rw [← hconstraints c hc σ τ hστ]
  exact hσ c hc

/-- States in succession are those that the constraints allow. -/
theorem next_eq_allowed {numVars : Int} {init : Diagram n} {constraints : List (Diagram n)}
    {method : Method} {r : Relation n} (h : make numVars init constraints method = .ok r) :
    r.Next = Allowed constraints := by
  funext s s'
  exact propext (holds_iff h _)

/-- With enough diagram variables there is a relation of any constraints on current and next values.
The successors of a set of states are found without a clash, are a set of states again, and are the
states that the constraints allow after some state of the set; and so are its predecessors the states
before. Neither the order of the constraints nor the method makes a difference to them. -/
theorem images_exact {k : Nat} (hfits : 2 * k ≤ n) (init : Diagram n)
    {constraints : List (Diagram n)} (hconstraints : ∀ c ∈ constraints, c.DependsOnly (· < 2 * k))
    {method : Method} (hmethod : ∀ code, method ≠ .other code) :
    ∃ r, make k init constraints method = .ok r ∧ ∀ s : Diagram n, s.OverCurrent k →
      (Stage.apply r.forward s).rename r.toCurrent = .ok (r.postImage s) ∧
      (r.postImage s).OverCurrent k ∧
      (∀ y : State k, (r.postImage s).HoldsAt y ↔ ∃ x, s.HoldsAt x ∧ Allowed constraints x y) ∧
      ∃ before, r.preImage s = .ok before ∧ before.OverCurrent k ∧
        (∀ x : State k, before.HoldsAt x ↔ ∃ y, s.HoldsAt y ∧ Allowed constraints x y) ∧
        ∀ init' constraints' method' r', constraints'.Perm constraints →
          make k init' constraints' method' = .ok r' →
          r'.postImage s = r.postImage s ∧ r'.preImage s = .ok before := by
  -- What is to be shown of one relation also fixes the images under every other one.
  have himages : ∀ {init constraints method r}, make k init constraints method = .ok r →
      (∀ c ∈ constraints, c.DependsOnly (· < 2 * k)) → ∀ s : Diagram n, s.OverCurrent k →
      (r.postImage s).OverCurrent k ∧
      (∀ y : State k, (r.postImage s).HoldsAt y ↔ ∃ x, s.HoldsAt x ∧ Allowed constraints x y) ∧
      ∃ before, r.preImage s = .ok before ∧ before.OverCurrent k ∧
        ∀ x : State k, before.HoldsAt x ↔ ∃ y, s.HoldsAt y ∧ Allowed constraints x y := by
    intro init constraints method r hmake hcs s hs
    obtain rfl : r.numVars = k := (make_eq_ok hmake).1
    have hr : r.OverStates := overStates_of_make hmake hcs
    obtain ⟨after, hafter, hover, hpost⟩ := exists_image_states hr hs .forward
    obtain ⟨before, hbefore, hover', hpre⟩ := exists_image_states hr hs .backward
    cases hafter
    simp only [NextTo, next_eq_allowed hmake] at hpost hpre
    exact ⟨hover, hpost, before, hbefore, hover', hpre⟩
  obtain ⟨parts, hparts⟩ := exists_partsOf hmethod constraints
  have hmake := make_eq hfits init hparts
  refine ⟨_, hmake, fun s hs => ?_⟩
  obtain ⟨hover, hpost, before, hbefore, hover', hpre⟩ := himages hmake hconstraints s hs
  refine ⟨rename_toCurrent (parts_ne_nil hmake) s, hover, hpost, before, hbefore, hover', hpre, ?_⟩
  intro init' constraints' method' r' hperm hmake'
  have hallowed : ∀ x y : State k, Allowed constraints' x y ↔ Allowed constraints x y := by
    intro x y
    simp only [Allowed, hperm.mem_iff]
  obtain ⟨hover₁, hpost₁, before₁, hbefore₁, hover₁', hpre₁⟩ :=
    himages hmake' (fun c hc => hconstraints c (hperm.mem_iff.mp hc)) s hs
  constructor
  · apply hover₁.eq_of_holdsAt hover
    intro y
    simp only [hpost, hpost₁, hallowed]
  · have hsame : before₁ = before := by
      apply hover₁'.eq_of_holdsAt hover'
      intro x
      simp only [hpre, hpre₁, hallowed]
    rw [hbefore₁, hsame]

/-- Two variables that take each other's value in every step. -/
def exchange : List (Diagram 4) :=
  [(Diagram.literal ⟨1, by decide⟩ true).iff (Diagram.literal ⟨2, by decide⟩ true),
    (Diagram.literal ⟨3, by decide⟩ true).iff (Diagram.literal ⟨0, by decide⟩ true)]

/-- After the states in which the first variable is true come those in which the second one is; the
other method finds them too, with the constraints the other way round. -/
theorem images_exchange : ∃ r r', make 2 (.const true) exchange .partition = .ok r ∧
    make 2 (.const true) exchange.reverse .monolithic = .ok r' ∧
    (∀ y : State 2, (r.postImage (.literal 0 true)).HoldsAt y ↔ y 1 = true) ∧
    r'.postImage (.literal 0 true) = r.postImage (.literal 0 true) := by
  have hover : ∀ c ∈ exchange, c.DependsOnly (· < 2 * 2) :=
    List.forall_mem_cons.mpr ⟨.combine _ (.literal (by decide) true) (.literal (by decide) true),
      List.forall_mem_singleton.mpr
        (.combine _ (.literal (by decide) true) (.literal (by decide) true))⟩
  have hfirst : (Diagram.literal (0 : Fin 4) true).OverCurrent 2 := .literal ⟨by decide, rfl⟩ true
  have hover' : ∀ c ∈ exchange.reverse, c.DependsOnly (· < 2 * 2) :=
    fun c hc => hover c (List.mem_reverse.mp hc)
  obtain ⟨r, hmake, himages⟩ :=
    @images_exact 4 2 (by decide) (.const true) exchange hover .partition nofun
  obtain ⟨r', hmake', -⟩ :=
    @images_exact 4 2 (by decide) (.const true) exchange.reverse hover' .monolithic nofun
  obtain ⟨-, -, hpost, before, -, -, -, hsame⟩ := himages (.literal 0 true) hfirst
  have hallowed : ∀ x y : State 2, Allowed exchange x y ↔ y 0 = x 1 ∧ y 1 = x 0 := by
    intro x y
    simp only [Allowed, exchange, List.forall_mem_cons, List.not_mem_nil, false_implies,
      implies_true, and_true, Diagram.eval_iff, Diagram.eval_literal, beq_iff_eq]
    change (y 0 == true) = (x 1 == true) ∧ (y 1 == true) = (x 0 == true) ↔ _
    simp
  refine ⟨r, r', hmake, hmake', fun y => ?_,
    (hsame _ _ _ r' (List.reverse_perm exchange) hmake').1⟩
  have hheld : ∀ x : State 2, (Diagram.literal (0 : Fin 4) true).HoldsAt x ↔ x 0 = true := by
    intro x
    rw [Diagram.HoldsAt, Diagram.eval_literal]
    change (x 0 == true) = true ↔ _
    simp
  simp only [hpost, hallowed, hheld]
  constructor
  · rintro ⟨x, hx, -, hy⟩
    rw [hy, hx]
  · intro hy
    exact ⟨fun i => if i = 0 then y 1 else y 0, hy, rfl, rfl⟩

end Relation
end SymbolicLtl
