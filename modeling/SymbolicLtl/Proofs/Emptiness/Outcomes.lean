import SymbolicLtl.Proofs.Emptiness.Verdict
import SymbolicLtl.Proofs.Reachability.Outcomes

/-!
Every way in which a check may go. Checks by any sound strategies, and with relations that have the
same transitions in different parts, go through the same sets and answer alike.
-/
namespace SymbolicLtl

variable {n : Nat}

structure Relation.Alike (r r' : Relation n) : Prop where
  numVars : r.numVars = r'.numVars
  init : r.init = r'.init
  holds : ∀ σ, r.Holds σ ↔ r'.Holds σ

theorem Relation.Alike.refl (r : Relation n) : r.Alike r := ⟨rfl, rfl, fun _ => Iff.rfl⟩

namespace Relation.Alike

variable {r r' : Relation n} (h : r.Alike r') {a : Automaton n}

include h

theorem toNext_eq : r.toNext = r'.toNext := by
  simp only [toNext, h.numVars]

theorem toCurrent_eq : r.toCurrent = r'.toCurrent := by
  simp only [toCurrent, h.numVars]

theorem passes_iff (dir : Direction) (ρ ρ' : Nat → Bool) :
    r.Passes dir ρ ρ' ↔ r'.Passes dir ρ ρ' := by
  cases dir with
  | forward => simp only [Passes, h.numVars, h.toCurrent_eq, h.holds]
  | backward => simp only [Passes, h.numVars, h.toNext_eq, h.holds]

theorem advance_eq (dir : Direction) (constraint : Constraint n) :
    Product.Advance ⟨r, a⟩ dir constraint = Product.Advance ⟨r', a⟩ dir constraint := by
  funext x y
  cases dir with
  | forward => simp only [Product.Advance, Product.Move, h.passes_iff]
  | backward => simp only [Product.Advance, Product.Move, h.passes_iff]

theorem search_eq (hne : r.parts ≠ []) (hne' : r'.parts ≠ []) {dir : Direction}
    {start : StateSets n a.size} {constraint : Constraint n}
    (hcov : ∀ q : Fin a.size, constraint.covers q = true)
    (hadmits : Product.Admits ⟨r, a⟩ dir start constraint) :
    (Product.search ⟨r', a⟩ dir start constraint).result =
      (Product.search ⟨r, a⟩ dir start constraint).result := by
  have hadmits' : Product.Admits ⟨r', a⟩ dir start constraint :=
    ⟨h.numVars ▸ hadmits.labels, h.numVars ▸ hadmits.start, h.numVars ▸ hadmits.constraint⟩
  obtain ⟨v, hv, hhas⟩ := Product.search_exact hne hcov hadmits
  obtain ⟨v', hv', hhas'⟩ := Product.search_exact hne' hcov hadmits'
  have heq : v' = v := by
    apply StateSets.ext_has
    intro y
    rw [hhas, hhas', h.advance_eq]
  rw [hv, hv', heq]

theorem start_eq : Product.start ⟨r, a⟩ = Product.start ⟨r', a⟩ := by
  simp only [Product.start, h.init]

theorem witnesses_eq (sets : List (StateSets n a.size)) :
    Product.witnesses ⟨r, a⟩ sets = Product.witnesses ⟨r', a⟩ sets := by
  simp only [Product.witnesses, stateCount, h.numVars]

theorem postImage_eq (hne : r.parts ≠ []) (hne' : r'.parts ≠ []) :
    r.postImage = r'.postImage := by
  funext s
  apply Diagram.ext
  intro ρ
  rw [Bool.eq_iff_iff, eval_postImage hne, eval_postImage hne']
  simp only [h.passes_iff]

/-- A safety check takes the same course with both relations. -/
theorem checkSafety_eq (hne : r.parts ≠ []) (hne' : r'.parts ≠ []) :
    Product.checkSafety ⟨r, a⟩ = Product.checkSafety ⟨r', a⟩ := by
  have hround : ∀ reach frontier : StateSets n a.size,
      Product.forwardRound ⟨r, a⟩ none reach frontier =
        Product.forwardRound ⟨r', a⟩ none reach frontier := by
    intro reach frontier
    simp only [Product.forwardRound, Product.roundOf, h.postImage_eq hne hne']
    rfl
  have hsearch : ∀ reach frontier : StateSets n a.size,
      Product.safetySearch ⟨r, a⟩ reach frontier =
        Product.safetySearch ⟨r', a⟩ reach frontier := by
    intro reach frontier
    fun_induction Product.safetySearch ⟨r', a⟩ reach frontier with
    | case1 reach frontier found hend =>
      rw [Product.safetySearch, h.witnesses_eq, dif_pos hend]
    | case2 reach frontier found hend round found' iterations images hrest ih =>
      rw [Product.safetySearch, h.witnesses_eq, dif_neg hend]
      dsimp only
      rw [hround, ih, hrest]
  simp only [Product.checkSafety, hsearch, h.start_eq]

end Relation.Alike

namespace Strategy

variable {p : Product n}

/-- How shrinking sets may end, and the strategy after it. -/
inductive Shrinks (reachable : Constraint n) : Strategy p → Nat → StateSets n p.size →
    Except Misuse (StateSets n p.size × Nat) → Strategy p → Prop
  | failed {s s' : Strategy p} {i : Nat} {fair : StateSets n p.size} {m : Misuse}
    (h : s.Searches .backward fair reachable (.error m) s') :
    Shrinks reachable s i fair (.error m) s'
  | stable {s s' : Strategy p} {i : Nat} {fair backward : StateSets n p.size}
    (h : s.Searches .backward fair reachable (.ok backward) s') (hfair : fair.and backward = fair) :
    Shrinks reachable s i fair (.ok (fair, i)) s'
  | shrunk {s s' s'' : Strategy p} {i : Nat} {fair backward : StateSets n p.size}
    {r : Except Misuse (StateSets n p.size × Nat)}
    (h : s.Searches .backward fair reachable (.ok backward) s') (hfair : fair.and backward ≠ fair)
    (hrest : Shrinks reachable s' (i + 1) (fair.and backward) r s'') :
    Shrinks reachable s i fair r s''

theorem shrinks_shrink (reachable : Constraint n) (verbose : Bool) (s : Strategy p) (i : Nat)
    (fair : StateSets n p.size) : Shrinks reachable s i fair
      (shrink reachable verbose s i fair).result (shrink reachable verbose s i fair).strategy := by
  fun_induction shrink reachable verbose s i fair with
  | case1 s i fair passage m hm =>
    have hsearch := s.searches_reachable .backward fair reachable
    rw [hm] at hsearch
    exact .failed hsearch
  | case2 s i fair passage backward hb events hfair =>
    have hsearch := s.searches_reachable .backward fair reachable
    rw [hb] at hsearch
    exact .stable hsearch hfair
  | case3 s i fair passage backward hb events hfair rest ih =>
    have hsearch := s.searches_reachable .backward fair reachable
    rw [hb] at hsearch
    exact .shrunk hsearch hfair ih

inductive Checks (s : Strategy p) : Except Misuse Response → Prop
  | lost {s' : Strategy p} {m : Misuse} (h : s.Searches .forward p.start none (.error m) s') :
    Checks s (.error m)
  | ended {s' s'' : Strategy p} {found fair : StateSets n p.size}
    {r : Except Misuse (StateSets n p.size × Nat)}
    (h : s.Searches .forward p.start none (.ok found) s')
    (hfair : p.atAccepting (found.or p.start).toList = .ok fair)
    (hshrink : Shrinks (some (found.or p.start).toList) s' 1 fair r s'') :
    Checks s (r.map fun x => Product.respond false (p.witnesses [found.or p.start, x.1])
      ⟨s.name, x.2, s''.work⟩)

theorem checks_check (s : Strategy p) (verbose : Bool) : s.Checks (s.check verbose).result := by
  have hsearch := s.searches_reachable .forward p.start none
  cases hforward : (s.reachable .forward p.start none).result with
  | error m =>
    rw [hforward] at hsearch
    simp only [check, hforward]
    exact .lost hsearch
  | ok found =>
    rw [hforward] at hsearch
    have hfair := Product.atAccepting_toList (found.or p.start)
    have hchecks : s.Checks _ := .ended hsearch hfair (shrinks_shrink _ verbose _ 1 _)
    simp only [check, hforward, fairStates, Option.getD_some, hfair]
    split
    · next m hm =>
      rw [hm] at hchecks
      exact hchecks
    · next sets i hok =>
      rw [hok] at hchecks
      exact hchecks

end Strategy

/-- The same answer, but for the strategy and its work. -/
structure Response.Agrees (x y : Response) : Prop where
  holds : x.holds = y.holds
  safety : x.safety = y.safety
  violating : x.violating = y.violating
  witnesses : x.witnesses = y.witnesses
  fairIterations : x.statistic.fairIterations = y.statistic.fairIterations

namespace Relation.Alike

variable {r r' : Relation n} {a : Automaton n} {s s₁ : Strategy ⟨r, a⟩} {t t₁ : Strategy ⟨r', a⟩}

/-- Searches by sound strategies in alike products find the same set of states. -/
theorem searches (h : r.Alike r') (hp : Product.OverStates ⟨r, a⟩) (hne : r'.parts ≠ [])
    (hs : s.engine.Sound) (ht : t.engine.Sound) {dir : Direction} {start : StateSets n a.size}
    {constraint : Constraint n} (hcov : ∀ q : Fin a.size, constraint.covers q = true)
    (hstart : ∀ q, (start q).OverCurrent r.numVars)
    (hc : ∀ q : Fin a.size, (constraint.setAt q).OverCurrent r.numVars)
    {x y : Except Misuse (StateSets n a.size)} (hx : s.Searches dir start constraint x s₁)
    (hy : t.Searches dir start constraint y t₁) :
    ∃ v, x = .ok v ∧ y = .ok v ∧ (∀ q, (v q).OverCurrent r.numVars) ∧ s₁.engine.Sound ∧
      t₁.engine.Sound := by
  have hadmits : Product.Admits ⟨r, a⟩ dir start constraint := hp.admits dir hstart hc
  have hadmits' : Product.Admits ⟨r', a⟩ dir start constraint :=
    ⟨h.numVars ▸ hadmits.labels, h.numVars ▸ hadmits.start, h.numVars ▸ hadmits.constraint⟩
  obtain ⟨hx, hs₁⟩ := hx.exact hp.parts_ne_nil hs hadmits hcov
  obtain ⟨hy, ht₁⟩ := hy.exact hne ht hadmits' hcov
  obtain ⟨v, hv, hover, -⟩ := @Product.search_states n ⟨r, a⟩ hp dir start constraint hcov hstart hc
  rw [h.search_eq hp.parts_ne_nil hne hcov hadmits, hv] at hy
  exact ⟨v, hx.trans hv, hy, hover, hs₁, ht₁⟩

/-- Shrinking goes through the same sets, in as many iterations. -/
theorem shrinks (h : r.Alike r') (hp : Product.OverStates ⟨r, a⟩) (hne : r'.parts ≠ [])
    {reachable : Constraint n} (hcov : ∀ q : Fin a.size, reachable.covers q = true)
    (hc : ∀ q : Fin a.size, (reachable.setAt q).OverCurrent r.numVars)
    (hs : s.engine.Sound) (ht : t.engine.Sound) {i : Nat} {fair : StateSets n a.size}
    (hfair : ∀ q, (fair q).OverCurrent r.numVars)
    {x y : Except Misuse (StateSets n a.size × Nat)} (hx : s.Shrinks reachable i fair x s₁)
    (hy : t.Shrinks reachable i fair y t₁) : ∃ result, x = .ok result ∧ y = .ok result := by
  -- Both go on or stop together, since the sets they find are the same.
  induction hx generalizing t with
  | failed hx =>
    cases hy with
    | failed hy | stable hy | shrunk hy =>
      obtain ⟨v, hv, -⟩ := h.searches hp hne hs ht hcov hfair hc hx hy
      cases hv
  | stable hx hstable =>
    cases hy with
    | failed hy =>
      obtain ⟨v, -, hv, -⟩ := h.searches hp hne hs ht hcov hfair hc hx hy
      cases hv
    | stable hy => exact ⟨_, rfl, rfl⟩
    | shrunk hy hshrunk =>
      obtain ⟨v, hv, hv', -⟩ := h.searches hp hne hs ht hcov hfair hc hx hy
      cases hv
      cases hv'
      exact absurd hstable hshrunk
  | shrunk hx hshrunk _ ih =>
    cases hy with
    | failed hy =>
      obtain ⟨v, -, hv, -⟩ := h.searches hp hne hs ht hcov hfair hc hx hy
      cases hv
    | stable hy hstable =>
      obtain ⟨v, hv, hv', -⟩ := h.searches hp hne hs ht hcov hfair hc hx hy
      cases hv
      cases hv'
      exact absurd hstable hshrunk
    | shrunk hy _ hrest =>
      obtain ⟨v, hv, hv', hover, hs₁, ht₁⟩ := h.searches hp hne hs ht hcov hfair hc hx hy
      cases hv
      cases hv'
      refine ih hs₁ ht₁ (fun q => ?_) hrest
      rw [StateSets.get_and]
      exact (hfair q).and (hover q)

/-- Checks by sound strategies in alike products answer, and they answer alike. -/
theorem checks (h : r.Alike r') (hp : Product.OverStates ⟨r, a⟩) (hne : r'.parts ≠ [])
    (hinit : r.init.OverCurrent r.numVars) (hs : s.engine.Sound) (ht : t.engine.Sound)
    {x y : Except Misuse Response} (hx : s.Checks x) (hy : t.Checks y) :
    ∃ b c, x = .ok b ∧ y = .ok c ∧ b.Agrees c := by
  have hstart := @Product.overCurrent_start n ⟨r, a⟩ hinit
  have hnone : ∀ q : Fin a.size, (Constraint.setAt (none : Constraint n) q).OverCurrent r.numVars :=
    fun _ => .const true
  have hforward : ∀ {x y s' t'}, s.Searches .forward (Product.start ⟨r, a⟩) none x s' →
      t.Searches .forward (Product.start ⟨r', a⟩) none y t' →
      ∃ v, x = .ok v ∧ y = .ok v ∧ (∀ q, (v q).OverCurrent r.numVars) ∧ s'.engine.Sound ∧
        t'.engine.Sound := by
    intro x y s' t' hx hy
    rw [← h.start_eq] at hy
    exact h.searches hp hne hs ht (fun _ => rfl) hstart hnone hx hy
  cases hx with
  | lost hx =>
    cases hy with
    | lost hy | ended hy =>
      obtain ⟨v, hv, -⟩ := hforward hx hy
      cases hv
  | @ended s₁ s₂ found fair r₁ hx hfair hshrink =>
    cases hy with
    | lost hy =>
      obtain ⟨v, -, hv, -⟩ := hforward hx hy
      cases hv
    | @ended t₁ t₂ found' fair' r₂ hy hfair' hshrink' =>
      obtain ⟨v, hv, hv', hover, hs₁, ht₁⟩ := hforward hx hy
      cases hv
      cases hv'
      rw [← h.start_eq] at hfair' hshrink'
      have hreach : ∀ q, (found.or (Product.start ⟨r, a⟩) q).OverCurrent r.numVars := by
        intro q
        rw [StateSets.get_or]
        exact (hover q).or (hstart q)
      have hlimit : ∀ q : Fin a.size, (Constraint.setAt
          (some (found.or (Product.start ⟨r, a⟩)).toList) q).OverCurrent r.numVars := by
        intro q
        rw [Constraint.setAt_toList]
        exact hreach q
      obtain rfl : fair = fair' := Except.ok.inj (hfair.symm.trans hfair')
      obtain ⟨⟨sets, i⟩, rfl, rfl⟩ := h.shrinks hp hne (Constraint.covers_toList _) hlimit hs₁ ht₁
        (Product.overCurrent_atAccepting hreach hfair) hshrink hshrink'
      have hwitnesses := h.witnesses_eq [found.or (Product.start ⟨r, a⟩), sets]
      rw [h.start_eq] at hwitnesses
      refine ⟨_, _, rfl, rfl, ?_⟩
      dsimp only
      rw [← hwitnesses, h.start_eq]
      exact ⟨rfl, rfl, rfl, rfl, rfl⟩

end Relation.Alike

end SymbolicLtl
