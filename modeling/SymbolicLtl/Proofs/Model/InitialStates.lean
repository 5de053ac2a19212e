import SymbolicLtl.Proofs.Formula.Spacing
import SymbolicLtl.Proofs.Model.Meaning
import SymbolicLtl.Proofs.Relation.Image

/-!
The initial states of a model. A formula that speaks of next values itself is refused, but what it
reaches through abbreviations is not looked at. So the initial states depend on current values, and
on those next values that abbreviations bring in.
-/
namespace SymbolicLtl

namespace Scope

variable {s : Scope} {f : Formula}

theorem InRange.dependsOnly_of_compile {n : Nat} (hs : s.InRange n) {d : Diagram n}
    (hd : s.compile f = .ok d) : d.DependsOnly fun v => ∃ x current next,
      s.lookup x = some (.variable current next) ∧
        (s.Reaches f x ∧ v = current.toNat ∨ s.ReachesNext f x ∧ v = next.toNat) := by
  intro σ τ hστ
  obtain ⟨g, hg, heval⟩ := hs.expands_of_compile hd
  rw [heval, heval]
  refine Formula.eval_congr (fun x hx => ?_) fun x hx => ?_
  · obtain ⟨hreach, current, next, hlookup⟩ := hg.reaches_of_readsCurrent hx
    rw [currentValue_of_variable hlookup, currentValue_of_variable hlookup]
    exact hστ _ ⟨x, current, next, hlookup, .inl ⟨hreach, rfl⟩⟩
  · obtain ⟨hreach, current, next, hlookup⟩ := hg.reachesNext_of_readsNext hx
    rw [nextValue_of_variable hlookup, nextValue_of_variable hlookup]
    exact hστ _ ⟨x, current, next, hlookup, .inr ⟨hreach, rfl⟩⟩

end Scope

namespace Model

variable {m : Model} {n : Nat} {s : Scope}

/-- A formula of the initial states that speaks of next values itself is refused. -/
theorem initialSet_of_hasNext {f : Formula} (hf : Formula.parse m.init = .ok f)
    (hnext : f.hasNext = true) : m.initialSet n s = .error (.refused .initRefersToNext) := by
  have hne : m.init ≠ "" := by
    intro hempty
    rw [hempty] at hf
    exact Formula.parse_nil_ne_ok f hf
  unfold initialSet
  rw [if_neg hne, hf]
  simp only [Except.mapError, Attempt.ofRefusal, Attempt.ok_bind, hnext, if_true]
  rfl

theorem Resolves.dependsOnly_of_compile (h : m.Resolves s) (hn : m.varnum ≤ n) {f : Formula}
    {d : Diagram n} (hd : s.compile f = .ok d) : d.DependsOnly fun v => ∃ x ∈ m.vars,
      s.Reaches f x ∧ v = currentVar (m.vars.idxOf x) ∨
        s.ReachesNext f x ∧ v = nextVar (m.vars.idxOf x) := by
  refine ((h.inRange hn).dependsOnly_of_compile hd).mono fun v hv => ?_
  obtain ⟨x, current, next, hx, hreach⟩ := hv
  obtain ⟨hmem, rfl, rfl⟩ := h.of_variable hx
  exact ⟨x, hmem, by simpa using hreach⟩

/-- A formula of the initial states that speaks of next values itself is refused as a fault of the model,
once the names of the model are settled. Otherwise the initial states depend on the current values that
their formula reaches, and on the next values that it reaches through abbreviations; if there are none of
these, they are a set of states. -/
theorem build_init_dependsOnly (hn : m.varnum ≤ n) (method : Method) :
    (∀ f, Formula.parse m.init = .ok f → f.hasNext = true →
      (∀ s, m.scope = .ok s → m.build n method = .error (.refused .initRefersToNext)) ∧
      ∀ e, m.scope = .error e → m.build n method = .error (.refused e)) ∧
    ModelError.initRefersToNext.isInvalid = true ∧
    ∀ (r : Relation n) s, m.build n method = .ok (r, s) →
      m.init = "" ∧ r.init = .const true ∨
      ∃ f, Formula.parse m.init = .ok f ∧ f.hasNext = false ∧
        (r.init.DependsOnly fun v => ∃ x ∈ m.vars,
          s.Reaches f x ∧ v = currentVar (m.vars.idxOf x) ∨
            s.ReachesNext f x ∧ v = nextVar (m.vars.idxOf x)) ∧
        ((∀ x, ¬ s.ReachesNext f x) → r.init.OverCurrent r.numVars) := by
  refine ⟨fun f hf hnext => ⟨fun s hs => ?_, fun e he => ?_⟩, rfl, fun r s h => ?_⟩
  · unfold build
    rw [hs, Attempt.ofRefusal, Except.mapError, Attempt.ok_bind, initialSet_of_hasNext hf hnext,
      Attempt.error_bind]
  · unfold build
    rw [he, Attempt.ofRefusal, Except.mapError, Attempt.error_bind]
  · obtain ⟨hs, init, cs, hinit, -, hmake⟩ := build_eq_ok.mp h
    obtain ⟨hvars, rfl, -⟩ := Relation.make_eq_ok hmake
    rcases initialSet_eq_ok.mp hinit with hempty | ⟨-, f, hf, hnext, hd⟩
    · exact .inl hempty
    · have hdepends := (resolves hs).dependsOnly_of_compile hn hd
      refine .inr ⟨f, hf, hnext, hdepends, fun hnone => hdepends.mono fun v hv => ?_⟩
      obtain ⟨x, hmem, ⟨-, rfl⟩ | ⟨hreach, -⟩⟩ := hv
      · have hlt := List.idxOf_lt_length_of_mem hmem
        rw [hvars, IsCurrent, currentVar]
        omega
      · exact absurd hreach (hnone x)

/-- A formula of the initial states that is itself about a next value is refused. That of `blinker` reaches
the current value of `x` through two abbreviations, and gives a set of states. -/
theorem build_init_blinker :
    ({ vars := ["x"], init := "next(x)" } : Model).build 2 .partition =
      .error (.refused .initRefersToNext) ∧
    ∃ (r : Relation 4) (s : Scope), blinker.build 4 .partition = .ok (r, s) ∧
      r.init.OverCurrent r.numVars := by
  constructor
  · obtain ⟨hrefuse, -⟩ := @build_init_dependsOnly { vars := ["x"], init := "next(x)" } 2 (by decide)
      .partition
    have hparse : Formula.parse "next(x)" = .ok (.next "x") :=
      Formula.parse_render (f := .next "x") (by decide +kernel)
    obtain ⟨s, hs⟩ := exists_scope_iff (m := { vars := ["x"], init := "next(x)" }).mpr
      ⟨by decide, by simp⟩
    exact (hrefuse _ hparse rfl).1 s hs
  · have hn : blinker.varnum ≤ 4 := by decide
    have hmethod : ∀ code, Method.partition ≠ .other code := by
      intro code h
      cases h
    obtain ⟨⟨r, s⟩, h⟩ := (exists_build_iff hn hmethod).mpr buildable_blinker
    have hres := resolves (build_eq_ok.mp h).1
    obtain ⟨-, -, hdepends⟩ := build_init_dependsOnly hn .partition
    rcases hdepends r s h with ⟨hempty, -⟩ | ⟨f, hf, -, -, hover⟩
    · exact absurd hempty (by decide)
    · obtain rfl : f = .ident "d" := Except.ok.inj
        (hf.symm.trans (Formula.parse_render (f := .ident "d") (by decide +kernel)))
      refine ⟨r, s, h, hover fun x => ?_⟩
      rw [Scope.reachesNext_define (hres.lookup_of_define (by decide) defines_blinker.1),
        Scope.reachesNext_not,
        Scope.reachesNext_define (hres.lookup_of_define (by decide) defines_blinker.2),
        Scope.reachesNext_not]
      exact Scope.reachesNext_variable (hres.declared "x" (by decide))

/-- A model whose initial states look ahead through two abbreviations. -/
def foresight : Model where
  vars := ["x"]
  init := "d"
  defines := [("d", "e"), ("e", "next(x)")]

theorem parse_foresight : Formula.parse "d" = .ok (.ident "d") ∧
    Formula.parse "e" = .ok (.ident "e") ∧ Formula.parse "next(x)" = .ok (.next "x") :=
  ⟨Formula.parse_render (f := .ident "d") (by decide +kernel),
    Formula.parse_render (f := .ident "e") (by decide +kernel),
    Formula.parse_render (f := .next "x") (by decide +kernel)⟩

theorem expands_foresight : foresight.Expands 2 (.ident "d") (.next "x") :=
  .defined (by decide) parse_foresight.2.1
    (.defined (by decide) parse_foresight.2.2 (.next (by decide)))

/-- They are no set of states: whether a state is initial depends on the one that follows. -/
theorem build_foresight : ∃ (r : Relation 2) (s : Scope),
    foresight.build 2 .partition = .ok (r, s) ∧ ¬ r.init.OverCurrent r.numVars := by
  have hn : foresight.varnum ≤ 2 := by decide
  obtain ⟨hd, he, hnext⟩ := parse_foresight
  have hbuildable : foresight.Buildable := by
    refine ⟨by decide, by simp [foresight, he, hnext], fun _ => ⟨_, hd, rfl, 2, _, expands_foresight⟩, ?_⟩
    exact ⟨fun x _ text hlookup => by simp [foresight] at hlookup, by simp [foresight]⟩
  have hmethod : ∀ code, Method.partition ≠ .other code := by
    intro code h
    cases h
  obtain ⟨⟨r, s⟩, h⟩ := (exists_build_iff hn hmethod).mpr hbuildable
  obtain ⟨hvars, hinit, -⟩ := meaning_of_build hn h
  have heval : ∀ σ, r.init.eval σ = true ↔ σ 1 = true := by
    intro σ
    rw [hinit, or_iff_right (by decide)]
    exact yields_iff_of_expands (resolves (build_eq_ok.mp h).1) hd expands_foresight σ true
  refine ⟨r, s, h, fun hover => ?_⟩
  have hsame : r.init.eval (fun v => v == 1) = r.init.eval fun _ => false := by
    refine hover _ _ fun v hv => ?_
    have hne : v ≠ 1 := by
      rintro rfl
      exact absurd hv.2 (by decide)
    simpa using hne
  have htrue := (heval fun v => v == 1).mpr rfl
  rw [hsame, heval] at htrue
  cases htrue

end Model
end SymbolicLtl
