import SymbolicLtl.Proofs.Automaton.NeverClaim
import SymbolicLtl.Proofs.Emptiness.Verdict
import SymbolicLtl.Proofs.Model.Meaning
import SymbolicLtl.Proofs.Reachability.ForkJoin
import SymbolicLtl.Verifier.Run

/-!
How a check by one search can fail. Whatever the model and the claim, it answers or is refused, unless
next values get into the initial states or into a label; then the predecessors of a set may need a
renaming that clashes, and nothing else can go wrong.
-/
namespace SymbolicLtl

variable {n : Nat}

theorem Family.collect_eq_error {k : Nat} {ε α : Type} {f : Fin k → Except ε α} {e : ε}
    (h : collect k f = .error e) : ∃ q, f q = .error e := by
  induction k with
  | zero => cases h
  | succ k ih =>
    unfold collect at h
    rcases Attempt.bind_eq_error.mp h with h | ⟨xs, -, h⟩
    · obtain ⟨q, hq⟩ := ih h
      exact ⟨q.castSucc, hq⟩
    · rcases Attempt.bind_eq_error.mp h with h | ⟨x, -, h⟩
      · exact ⟨Fin.last k, h⟩
      · cases h

theorem Diagram.dependsOnly_lt (d : Diagram n) : d.DependsOnly fun v => v < n :=
  d.dependsOnly_support.mono fun v hv => by
    rw [support_eq] at hv
    exact (Tree.bounds_of_mem_support d.reduced hv).2

theorem Search.saturate_eq_error {k : Nat} {step : Stepper n k} {P : Misuse → Prop}
    (h : ∀ i reach frontier e, step i reach frontier = .error e → P e.misuse) {i : Nat}
    {reach frontier : StateSets n k} {m : Misuse}
    (hm : (saturate step i reach frontier).result = .error m) : P m := by
  fun_induction saturate step i reach frontier with
  | case1 i reach frontier hempty => cases hm
  | case2 i reach frontier hempty e he =>
    cases hm
    exact h i reach frontier e he
  | case3 i reach frontier hempty round hround ih => exact ih hm

namespace Product

variable {p : Product n}

theorem exists_search_forward (hne : p.relation.parts ≠ []) (start : StateSets n p.size)
    {constraint : Constraint n} (hcov : ∀ q : Fin p.size, constraint.covers q = true) :
    ∃ v, (p.search .forward start constraint).result = .ok v := by
  have hadmits : p.Admits .forward start constraint := ⟨nofun, nofun, nofun⟩
  obtain ⟨v, hv, -⟩ := search_exact hne hcov hadmits
  exact ⟨v, hv⟩

theorem search_backward_eq_error {start : StateSets n p.size} {constraint : Constraint n}
    (hcov : ∀ q : Fin p.size, constraint.covers q = true) {m : Misuse}
    (h : (p.search .backward start constraint).result = .error m) : m = .renameClash := by
  apply Search.saturate_eq_error (P := fun m => m = .renameClash) ?_ h
  intro i reach frontier e he
  unfold backwardStep at he
  split at he
  · next m hm =>
    cases he
    obtain ⟨q, hq⟩ := Family.collect_eq_error hm
    rw [ForkJoin.enteringImage_eq hcov] at hq
    exact Relation.preImage_eq_error hq
  · cases he

end Product

namespace Strategy

variable {p : Product n}

theorem shrink_eq_error {constraint : Constraint n}
    (hcov : ∀ q : Fin p.size, constraint.covers q = true) {verbose : Bool} {s : Strategy p}
    (hs : s.engine = .sequential) {i : Nat} {fair : StateSets n p.size} {m : Misuse}
    (h : (shrink constraint verbose s i fair).result = .error m) : m = .renameClash := by
  fun_induction shrink constraint verbose s i fair with
  | case1 s i fair passage m' hm' =>
    cases h
    rw [(reachable_sequential hs .backward fair constraint).1] at hm'
    exact Product.search_backward_eq_error hcov hm'
  | case2 s i fair passage backward hb events heq => cases h
  | case3 s i fair passage backward hb events hne rest ih =>
    exact ih (reachable_sequential hs .backward fair constraint).2 h

/-- A check by one search only fails when predecessors are renamed. -/
theorem check_eq_error (hne : p.relation.parts ≠ []) {s : Strategy p} (hs : s.engine = .sequential)
    {verbose : Bool} {m : Misuse} (h : (s.check verbose).result = .error m) : m = .renameClash := by
  obtain ⟨hresult, hengine⟩ := reachable_sequential hs .forward p.start none
  obtain ⟨found, hfound⟩ := @Product.exists_search_forward _ p hne p.start none fun _ => rfl
  unfold check at h
  simp only [hresult, hfound, fairStates, Option.getD_some, Product.atAccepting_toList] at h
  split at h
  · next m' hm' =>
    cases h
    exact shrink_eq_error (Constraint.covers_toList _) hengine hm'
  · cases h

end Strategy

namespace Settings

variable {s : Settings} {m : Model}

theorem checkVarnum_eq_ok {k j : Nat} (h : Manager.checkVarnum k = .ok j) : j = k := by
  unfold Manager.checkVarnum at h
  split at h
  · cases h
    exact Int.toNat_natCast k
  · cases h

theorem prepare_eq_ok {ready : Prepared} (h : s.prepare m = .ok ready) :
    ready.varnum = m.varnum ∧ m.build ready.varnum s.method = .ok (ready.relation, ready.scope) := by
  unfold prepare at h
  split at h
  · cases h
  obtain ⟨-, -, h⟩ := Attempt.bind_eq_ok.mp h
  obtain ⟨k, hk, h⟩ := Attempt.bind_eq_ok.mp h
  obtain ⟨⟨r, scope⟩, hbuild, h⟩ := Attempt.bind_eq_ok.mp h
  obtain ⟨fairness, -, h⟩ := Attempt.bind_eq_ok.mp h
  obtain ⟨trans, -, h⟩ := Attempt.bind_eq_ok.mp h
  cases h
  have hk := (Attempt.mapError_eq_ok_iff _).mp ((Attempt.mapError_eq_ok_iff _).mp hk)
  exact ⟨checkVarnum_eq_ok hk, (Attempt.mapError_eq_ok_iff _).mp hbuild⟩

theorem prepare_of_build {k : Nat} {r : Relation k} {scope : Scope} {fairness trans : List Formula}
    (hspec : m.ltlspec ≠ "") (hvalid : m.validate = .ok ())
    (hcount : Manager.checkVarnum m.varnum = .ok k) (hbuild : m.build k s.method = .ok (r, scope))
    (hfairness : m.fairnessFormulas = .ok fairness)
    (htrans : m.transFormulas s.extendTrans = .ok trans) :
    s.prepare m = .ok ⟨k, r, scope, negatedSpec m.ltlspec fairness trans⟩ := by
  unfold prepare
  rw [if_neg hspec, hvalid, hcount]
  simp only [Except.mapError, Attempt.ofRefusal, Attempt.ok_bind]
  rw [hbuild, hfairness, htrans]
  rfl

theorem neverMisused_prepare (s : Settings) (m : Model) : Attempt.NeverMisused (s.prepare m) := by
  unfold prepare
  split
  · exact Attempt.NeverMisused.bind (.refuse _) nofun
  apply Attempt.NeverMisused.bind (.ofRefusal _)
  intro _ _
  apply Attempt.NeverMisused.bind (.ofRefusal _)
  intro k hk
  have hk := (Attempt.mapError_eq_ok_iff _).mp ((Attempt.mapError_eq_ok_iff _).mp hk)
  have hle : m.varnum ≤ k := (checkVarnum_eq_ok hk).ge
  apply Attempt.NeverMisused.bind ((m.neverMisused_build hle s.method).restate _)
  intro b _
  apply Attempt.NeverMisused.bind (.ofRefusal _)
  intro fairness _
  exact Attempt.NeverMisused.bind (.ofRefusal _) fun _ _ => .ok _

theorem neverMisused_automaton {scope : Scope} (h : m.Resolves scope) (hn : m.varnum ≤ n)
    (answer : TranslatorAnswer) :
    Attempt.NeverMisused (answer.automaton scope : Attempt TranslatorError (Automaton n)) := by
  unfold TranslatorAnswer.automaton
  apply Attempt.NeverMisused.bind (.ofRefusal _)
  intro claim _
  exact (NeverClaim.neverMisused_parse h hn claim).restate _

theorem makeStrategy_sequential (hs : s.strategyName = "sequential") (p : Product n)
    (numVars : Nat) : Attempt.NeverMisused (s.makeStrategy p numVars) ∧
      ∀ strategy, s.makeStrategy p numVars = .ok strategy → strategy.engine = .sequential := by
  have hmake : ∀ forward backward,
      Strategy.make p ⟨s.strategyName, forward, backward, s.executors, s.verbose⟩ =
        .ok (.sequential p s.verbose) := by
    intro forward backward
    unfold Strategy.make
    rw [hs]
    rfl
  unfold makeStrategy
  constructor
  · apply Attempt.NeverMisused.bind (.ofRefusal _)
    intro forward _
    apply Attempt.NeverMisused.bind (.ofRefusal _)
    intro backward _
    rw [hmake]
    exact .ok _
  · intro strategy h
    obtain ⟨forward, -, h⟩ := Attempt.bind_eq_ok.mp h
    obtain ⟨backward, -, h⟩ := Attempt.bind_eq_ok.mp h
    rw [hmake] at h
    cases h
    rfl

theorem overStates_of_prepare {ready : Prepared} (h : s.prepare m = .ok ready)
    (a : Automaton ready.varnum)
    (hlabels : ∀ e ∈ a.edges, e.label.OverCurrent ready.relation.numVars) :
    Product.OverStates ⟨ready.relation, a⟩ := by
  obtain ⟨hvarnum, hbuild⟩ := prepare_eq_ok h
  obtain ⟨-, init, cs, -, -, hmake⟩ := Model.build_eq_ok.mp hbuild
  have hcount : 2 * ready.relation.numVars = ready.varnum := by
    rw [(Relation.make_eq_ok hmake).1, hvarnum, Int.toNat_natCast, Model.varnum]
  refine Product.overStates_of_make (p := ⟨ready.relation, a⟩) hmake (fun c _ => ?_) hlabels
  rw [hcount]
  exact c.dependsOnly_lt

/-- A check by one search answers where the initial states and all labels are sets of states. -/
theorem exists_decide {ready : Prepared} (h : s.prepare m = .ok ready)
    {a : Automaton ready.varnum} {strategy : Strategy ⟨ready.relation, a⟩}
    (hengine : strategy.engine = .sequential)
    (hinit : ready.relation.init.OverCurrent ready.relation.numVars)
    (hlabels : ∀ e ∈ a.edges, e.label.OverCurrent ready.relation.numVars) :
    ∃ response, (s.decide ⟨ready.relation, a⟩ strategy).1 = .ok response := by
  unfold decide
  split
  · exact ⟨_, rfl⟩
  · obtain ⟨qs, statistic, -, -, hcheck⟩ :=
      Strategy.check_fair (overStates_of_prepare h a hlabels) hinit hengine s.verbose
    exact ⟨_, hcheck⟩

theorem decide_eq_error {ready : Prepared} (h : s.prepare m = .ok ready)
    {a : Automaton ready.varnum} {strategy : Strategy ⟨ready.relation, a⟩}
    (hengine : strategy.engine = .sequential) {e : Misuse}
    (he : (s.decide ⟨ready.relation, a⟩ strategy).1 = .error e) :
    e = .renameClash ∧ s.safety = false := by
  obtain ⟨-, init, cs, -, -, hmake⟩ := Model.build_eq_ok.mp (prepare_eq_ok h).2
  unfold decide at he
  split at he
  · cases he
  · next hsafety =>
    exact ⟨Strategy.check_eq_error (Relation.parts_ne_nil hmake) hengine he, by simpa using hsafety⟩

theorem run_eq_decide {translator : Translator} {ending : Option Ending} {ready : Prepared}
    (hready : s.prepare m = .ok ready) {a : Automaton ready.varnum}
    (ha : (translator ending ready.formula).automaton ready.scope = .ok a)
    {strategy : Strategy ⟨ready.relation, a⟩}
    (hstrategy : s.makeStrategy ⟨ready.relation, a⟩ m.vars.length = .ok strategy) :
    (s.run translator ending m).result =
      Attempt.ofMisuse (s.decide ⟨ready.relation, a⟩ strategy).1 := by
  unfold run
  simp only [hready, ha, Attempt.restate, Except.mapError, hstrategy]
  rcases s.decide ⟨ready.relation, a⟩ strategy with ⟨result, log⟩
  cases result with
  | error e => rfl
  | ok response => rfl

/-- The end of a check by one search. It answers or is refused; or else, in a check that is not a
safety check, predecessors could not be renamed, and then the initial states or a label depend on
next values. -/
theorem run_sequential_ends (hs : s.strategyName = "sequential") (translator : Translator)
    (ending : Option Ending) (m : Model) :
    let result := (s.run translator ending m).result
    (∃ response, result = .ok response) ∨ (∃ e, result = .error (.refused e)) ∨
      result = .error (.misused .renameClash) ∧ s.safety = false ∧
        ∃ (ready : Prepared) (a : Automaton ready.varnum), s.prepare m = .ok ready ∧
          (translator ending ready.formula).automaton ready.scope = .ok a ∧
          ¬ (ready.relation.init.OverCurrent ready.relation.numVars ∧
            ∀ e ∈ a.edges, e.label.OverCurrent ready.relation.numVars) := by
  intro result
  rcases (neverMisused_prepare s m).ok_or_refused with ⟨ready, hready⟩ | ⟨e, he⟩
  swap
  · exact .inr (.inl ⟨e, by simp only [result, run, he]⟩)
  obtain ⟨hvarnum, hbuild⟩ := prepare_eq_ok hready
  have hscope := Model.resolves (Model.build_eq_ok.mp hbuild).1
  rcases (neverMisused_automaton hscope hvarnum.ge
    (translator ending ready.formula)).ok_or_refused with ⟨a, ha⟩ | ⟨e, he⟩
  swap
  · exact .inr (.inl ⟨.translator e, by
      simp only [result, run, hready, he, Attempt.restate, Except.mapError, Failure.map]⟩)
  obtain ⟨hmade, hengine⟩ := makeStrategy_sequential hs ⟨ready.relation, a⟩ m.vars.length
  rcases hmade.ok_or_refused with ⟨strategy, hstrategy⟩ | ⟨e, he⟩
  swap
  · exact .inr (.inl ⟨e, by
      simp only [result, run, hready, ha, Attempt.restate, Except.mapError, he]⟩)
  have hend : result = _ := run_eq_decide hready ha hstrategy
  cases hdecide : (s.decide ⟨ready.relation, a⟩ strategy).1 with
  | ok response =>
    rw [hdecide] at hend
    exact .inl ⟨response, hend⟩
  | error e =>
    obtain ⟨rfl, hsafety⟩ := decide_eq_error hready (hengine strategy hstrategy) hdecide
    rw [hdecide] at hend
    refine .inr (.inr ⟨hend, hsafety, ready, a, hready, ha, ?_⟩)
    rintro ⟨hinit, hlabels⟩
    obtain ⟨response, hresponse⟩ := exists_decide hready (hengine strategy hstrategy) hinit hlabels
    rw [hdecide] at hresponse
    cases hresponse

end Settings

/-- States in which a variable is true and stays true are no set of states to go back from. -/
theorem Relation.preImage_of_stays {r : Relation n} {i : Nat} (hi : i < r.numVars)
    {s : Diagram n} (hs : ∀ σ, s.eval σ = (σ (currentVar i) && σ (nextVar i))) :
    r.preImage s = .error .renameClash := by
  have hfits := r.fits
  have hstays : (Tree.node (currentVar i) (.leaf false)
      (.node (nextVar i) (.leaf false) (.leaf true))).Reduced 0 n := by
    unfold currentVar nextVar
    exact ⟨by omega, by omega, nofun, trivial, by omega, by omega, nofun, trivial, trivial⟩
  have htree : s.tree = _ := Tree.eq_of_eval_eq s.reduced hstays fun σ => by
    rw [← Diagram.eval, hs]
    cases h : σ (currentVar i) <;> simp [Tree.eval, h]
  have hclash : (Tree.Shared.rename r.toNext.image s.tree).val = none := by
    rw [(Tree.Shared.rename r.toNext.image s.tree).property, htree]
    simp [Tree.rename, Tree.select, Tree.isBelow, Tree.branch, Tree.mentions, toNext, currentVar,
      nextVar, hi]
  have hrename : s.rename r.toNext = .error .renameClash := by
    unfold Diagram.rename
    split
    · next t ht =>
      rw [hclash] at ht
      cases ht
    · rfl
  have hne : ¬ s.isFalse = true := by
    intro h
    have htrue := hs fun _ => true
    rw [s.isFalse_iff.mp h] at htrue
    cases htrue
  rw [preImage, if_neg hne, hrename]
  rfl

namespace Product

variable {p : Product n}

/-- A search against the edges fails if it cannot go back from its start. -/
theorem search_backward_of_clash {start : StateSets n p.size} {constraint : Constraint n}
    (hcov : ∀ q : Fin p.size, constraint.covers q = true) {q : Fin p.size}
    (hq : p.relation.preImage (start q) = .error .renameClash) :
    (p.search .backward start constraint).result = .error .renameClash := by
  have hne : ¬ start.isEmpty = true := by
    intro h
    have hfalse : (start q).isFalse = true := by
      rw [(StateSets.isEmpty_iff start).mp h q]
      simp [Diagram.isFalse_iff]
    rw [Relation.preImage, if_pos hfalse] at hq
    cases hq
  cases h : (p.search .backward start constraint).result with
  | error m => rw [search_backward_eq_error hcov h]
  | ok v =>
    change (Search.saturate (p.backwardStep constraint) 1 .none start).result = .ok v at h
    rw [Search.saturate, dif_neg hne] at h
    unfold backwardStep at h
    split at h
    · cases h
    · next round hround =>
      split at hround
      · cases hround
      · next images himages =>
        have hok := Family.collect_eq_ok_iff.mp himages q
        rw [ForkJoin.enteringImage_eq hcov] at hok
        cases hq.symm.trans hok

/-- Where no initial state has a transition, nothing is reached. -/
theorem search_forward_of_stuck (hne : p.relation.parts ≠ [])
    (h : ∀ σ, p.relation.init.eval σ = true → ¬ p.relation.Holds σ) :
    (p.search .forward p.start none).result = .ok .none := by
  have hadmits : p.Admits .forward p.start none := ⟨nofun, nofun, nofun⟩
  obtain ⟨v, hv, hhas⟩ := search_exact hne (fun _ => rfl) hadmits
  have hstuck : ∀ x y, p.start.Has x → ¬ p.Advance .forward none x y := by
    rintro x y hx ⟨⟨e, -, -, -, -, hpasses⟩, -⟩
    refine h x.2 ?_ hpasses.2
    rw [StateSets.Has, start, Family.get_ofFn] at hx
    split_ifs at hx
    · exact hx
    · cases hx
  have hnone : v = .none := by
    apply StateSets.ext_has
    intro y
    refine iff_of_false (fun hy => ?_) (StateSets.not_has_none y)
    obtain ⟨x, hx, hxy⟩ := (hhas y).mp hy
    obtain ⟨z, hz, -⟩ := Relation.TransGen.head'_iff.mp hxy
    exact hstuck x z hx hz
  rw [hv, hnone]

end Product

/-- A check fails if it finds nothing and cannot go back from the initial states. -/
theorem Strategy.check_of_clash {p : Product n} {s : Strategy p} (hs : s.engine = .sequential)
    (hfound : (p.search .forward p.start none).result = .ok .none) {q : Fin p.size}
    (hq : q ∈ p.automaton.accepting)
    (hclash : p.relation.preImage (p.start q) = .error .renameClash) (verbose : Bool) :
    (s.check verbose).result = .error .renameClash := by
  obtain ⟨hresult, hengine⟩ := reachable_sequential hs .forward p.start none
  have hstart : StateSets.or .none p.start = p.start := StateSets.ext_has fun x => by simp
  unfold check
  simp only [hresult, hfound, hstart, fairStates, Option.getD_some, Product.atAccepting_toList]
  have hshrink : ∀ fair : StateSets n p.size, fair q = p.start q →
      (shrink (some p.start.toList) verbose (s.reachable .forward p.start none).strategy 1
        fair).result = .error .renameClash := by
    intro fair hfair
    rw [← hfair] at hclash
    have hback := Product.search_backward_of_clash (Constraint.covers_toList p.start) hclash
    rw [shrink, (reachable_sequential hengine .backward fair _).1, hback]
  rw [hshrink]
  simp [hq]

/-- A model whose initial states look ahead through an abbreviation: there `x` stays true, but every
transition changes it. -/
def Model.glimpse : Model where
  vars := ["x"]
  init := "x & d"
  next := [("x", "!x")]
  defines := [("d", "next(x)")]
  ltlspec := "x"

namespace Model

theorem parse_glimpse : Formula.parse "x & d" = .ok (.binary .and (.ident "x") (.ident "d")) ∧
    Formula.parse "!x" = .ok (.not (.ident "x")) ∧ Formula.parse "next(x)" = .ok (.next "x") :=
  ⟨Formula.parse_render (f := .binary .and (.ident "x") (.ident "d")) (by decide +kernel),
    Formula.parse_render (f := .not (.ident "x")) (by decide +kernel),
    Formula.parse_render (f := .next "x") (by decide +kernel)⟩

theorem expands_glimpse : glimpse.Expands 1 (.binary .and (.ident "x") (.ident "d"))
      (.binary .and (.ident "x") (.next "x")) ∧
    glimpse.Expands 0 (.not (.ident "x")) (.not (.ident "x")) :=
  ⟨.binary .and (.declared (by decide))
      (.defined (by decide) parse_glimpse.2.2 (.next (by decide))), .not (.declared (by decide))⟩

theorem buildable_glimpse : glimpse.Buildable := by
  obtain ⟨hand, hnot, hahead⟩ := parse_glimpse
  obtain ⟨hinit, hnext⟩ := expands_glimpse
  refine ⟨by decide, ?_, fun _ => ⟨_, hand, rfl, 1, _, hinit⟩, fun x hx text hlookup => ?_, nofun⟩
  · intro d hd
    obtain rfl : d = ("d", "next(x)") := by simpa [glimpse] using hd
    exact ⟨_, hahead⟩
  · obtain rfl : x = "x" := by simpa [glimpse] using hx
    obtain rfl : "!x" = text := by simpa [glimpse] using hlookup
    exact ⟨_, 0, _, hnot, hnext⟩

theorem build_glimpse : ∃ (r : Relation 2) (s : Scope), glimpse.build 2 .partition = .ok (r, s) ∧
    r.numVars = 1 ∧ r.parts ≠ [] ∧ (∀ σ, r.init.eval σ = (σ 0 && σ 1)) ∧
    ∀ σ, r.Holds σ → σ 1 = !σ 0 := by
  have hn : glimpse.varnum ≤ 2 := by decide
  have hmethod : ∀ code, Method.partition ≠ .other code := nofun
  obtain ⟨⟨r, s⟩, h⟩ := (exists_build_iff hn hmethod).mpr buildable_glimpse
  obtain ⟨hs, init, cs, -, -, hmake⟩ := build_eq_ok.mp h
  obtain ⟨hvars, hinit, hholds⟩ := meaning_of_build hn h
  obtain ⟨hand, hnot, -⟩ := parse_glimpse
  refine ⟨r, s, h, hvars, Relation.parts_ne_nil hmake, fun σ => ?_, fun σ hσ => ?_⟩
  · rw [Bool.eq_iff_iff, hinit, or_iff_right (by decide)]
    exact yields_iff_of_expands (resolves hs) hand expands_glimpse.1 σ true
  · have hnext := ((hholds σ).mp hσ).next 0 "x" "!x" rfl rfl
    rw [yields_iff_of_expands (resolves hs) hnot expands_glimpse.2] at hnext
    exact hnext.symm

end Model

namespace Settings

theorem automaton_endless (scope : Scope) (ending : Option Ending) (formula : String) :
    (Translator.constant NeverClaim.endless ending formula).automaton scope = .ok (.loop n) := by
  unfold TranslatorAnswer.automaton
  simp only [Translator.constant, Attempt.ofRefusal, Except.mapError, Attempt.ok_bind,
    NeverClaim.parse_endless, Attempt.restate]

/-- The check of `glimpse` goes wrong where it goes back from the initial states. -/
theorem decide_glimpse : ∃ (ready : Prepared) (a : Automaton ready.varnum)
    (strategy : Strategy ⟨ready.relation, a⟩), default.prepare .glimpse = .ok ready ∧
      (Translator.constant NeverClaim.endless none ready.formula).automaton ready.scope = .ok a ∧
      default.makeStrategy ⟨ready.relation, a⟩ 1 = .ok strategy ∧
      (default.decide ⟨ready.relation, a⟩ strategy).1 = .error .renameClash := by
  obtain ⟨r, scope, hbuild, hvars, hne, hinit, hholds⟩ := Model.build_glimpse
  let p : Product 2 := ⟨r, .loop 2⟩
  have hstuck : ∀ σ, r.init.eval σ = true → ¬ r.Holds σ := by
    intro σ hσ h
    have hchange := hholds σ h
    rw [hinit, hchange] at hσ
    cases hzero : σ 0 <;> simp [hzero] at hσ
  have hfound : (p.search .forward p.start none).result = .ok .none :=
    Product.search_forward_of_stuck hne hstuck
  have hclash : r.preImage (p.start (0 : Fin 1)) = .error .renameClash := by
    apply Relation.preImage_of_stays (i := 0) (by omega)
    exact hinit
  have hready : default.prepare .glimpse = .ok ⟨2, r, scope, negatedSpec "x" [] []⟩ :=
    prepare_of_build (by decide) (by decide +kernel) rfl hbuild rfl rfl
  refine ⟨⟨2, r, scope, _⟩, .loop 2, .sequential p false, hready, automaton_endless scope none _,
    rfl, ?_⟩
  exact Strategy.check_of_clash rfl hfound (List.mem_singleton.mpr rfl) hclash false

/-- So one search for `glimpse` ends neither with an answer nor with a refusal, and gives no formula. -/
theorem run_glimpse :
    (default.run (.constant NeverClaim.endless) none .glimpse).result =
      .error (.misused .renameClash) ∧
    (default.run (.constant NeverClaim.endless) none .glimpse).formulas = [] := by
  obtain ⟨ready, a, strategy, hready, ha, hstrategy, hdecide⟩ := decide_glimpse
  have hend : (default.run (.constant NeverClaim.endless) none .glimpse).result =
      .error (.misused .renameClash) := by
    rw [run_eq_decide hready ha hstrategy, hdecide]
    rfl
  refine ⟨hend, ?_⟩
  rw [Report.formulas, hend]

/-- The initial states of `glimpse` depend on a next value. -/
theorem looks_ahead_glimpse : default.strategyName = "sequential" ∧
    ∃ (ready : Prepared) (a : Automaton ready.varnum), default.prepare .glimpse = .ok ready ∧
      (Translator.constant NeverClaim.endless none ready.formula).automaton ready.scope = .ok a ∧
      ¬ (ready.relation.init.OverCurrent ready.relation.numVars ∧
        ∀ e ∈ a.edges, e.label.OverCurrent ready.relation.numVars) := by
  obtain ⟨ready, a, strategy, hready, ha, hstrategy, hdecide⟩ := decide_glimpse
  have hend := run_eq_decide hready ha hstrategy
  rw [hdecide] at hend
  refine ⟨rfl, ?_⟩
  rcases run_sequential_ends (s := default) rfl (.constant NeverClaim.endless) none .glimpse with
    ⟨response, h⟩ | ⟨e, h⟩ | ⟨-, -, h⟩
  · cases hend.symm.trans h
  · cases hend.symm.trans h
  · exact h

end Settings
end SymbolicLtl
