import SymbolicLtl.Proofs.Emptiness.Outcomes
import SymbolicLtl.Proofs.Verifier.Misuse

/-!
A check does not depend on how it is carried out: by which strategy, with which slices, by how many
executors, with the relation in one part or in many, and in whatever order workers take their steps.
-/
namespace SymbolicLtl

variable {n : Nat} {m : Model}

namespace Model

/-- Methods make relations with the same transitions, or the model is refused for the same reason. -/
theorem build_alike (hn : m.varnum ≤ n) {method method' : Method}
    (h : ∀ code, method ≠ .other code) (h' : ∀ code, method' ≠ .other code) :
    (∃ e, m.build n method = .error (.refused e) ∧ m.build n method' = .error (.refused e)) ∨
      ∃ r r' scope, m.build n method = .ok (r, scope) ∧ m.build n method' = .ok (r', scope) ∧
        r.Alike r' := by
  cases hscope : m.scope with
  | error e => exact .inl ⟨e, by simp [build, hscope, Attempt.ofRefusal, Except.mapError]⟩
  | ok scope =>
    have hres := resolves hscope
    rcases (neverMisused_initialSet hres hn).ok_or_refused with ⟨init, hinit⟩ | ⟨e, he⟩
    swap
    · exact .inl ⟨e, by simp [build, hscope, he, Attempt.ofRefusal, Except.mapError]⟩
    rcases (neverMisused_constraints hres hn).ok_or_refused with ⟨cs, hcs⟩ | ⟨e, he⟩
    swap
    · exact .inl ⟨e, by simp [build, hscope, hinit, he, Attempt.ofRefusal, Except.mapError]⟩
    obtain ⟨parts, hparts⟩ := Relation.exists_partsOf h cs
    obtain ⟨parts', hparts'⟩ := Relation.exists_partsOf h' cs
    have hmake := Relation.make_eq hn init hparts
    have hmake' := Relation.make_eq hn init hparts'
    refine .inr ⟨_, _, scope, build_eq_ok.mpr ⟨hscope, init, cs, hinit, hcs, hmake⟩,
      build_eq_ok.mpr ⟨hscope, init, cs, hinit, hcs, hmake'⟩, rfl, rfl, fun σ => ?_⟩
    rw [Relation.holds_iff hmake, Relation.holds_iff hmake']

end Model

namespace Settings

variable {s t : Settings}

/-- What a setting asks for exists: a strategy, different state variables to slice on, a method. -/
structure Valid (s : Settings) (m : Model) : Prop where
  strategy : s.strategyName ∈ ["sequential", "fork-join", messagePassingName, ""]
  forward : s.forwardVars.Nodup ∧ ∀ i ∈ s.forwardVars, 0 ≤ i ∧ i < m.vars.length
  backward : s.backwardVars.Nodup ∧ ∀ i ∈ s.backwardVars, 0 ≤ i ∧ i < m.vars.length
  method : ∀ code, s.method ≠ .other code

/-- Valid settings prepare alike relations of a model, or refuse it for the same reason. -/
theorem prepare_alike (hs : s.Valid m) (ht : t.Valid m) (htrans : s.extendTrans = t.extendTrans) :
    (∃ e, s.prepare m = .error (.refused e) ∧ t.prepare m = .error (.refused e)) ∨
      ∃ (k : Nat) (r r' : Relation k) (scope : Scope) (formula : String),
        s.prepare m = .ok ⟨k, r, scope, formula⟩ ∧ t.prepare m = .ok ⟨k, r', scope, formula⟩ ∧
          r.Alike r' := by
  unfold prepare
  rw [← htrans]
  split
  · exact .inl ⟨.emptySpec, rfl, rfl⟩
  cases m.validate with
  | error e => exact .inl ⟨.model e, rfl, rfl⟩
  | ok u =>
    cases hk : Manager.checkVarnum m.varnum with
    | error e => exact .inl ⟨.varnum e, rfl, rfl⟩
    | ok k =>
      have hn : m.varnum ≤ k := (checkVarnum_eq_ok hk).ge
      simp only [Attempt.ofRefusal, Except.mapError, Attempt.ok_bind]
      rcases Model.build_alike hn hs.method ht.method with
        ⟨e, he, he'⟩ | ⟨r, r', scope, hr, hr', halike⟩
      · rw [he, he']
        exact .inl ⟨.model e, rfl, rfl⟩
      · rw [hr, hr']
        cases m.fairnessFormulas with
        | error e => exact .inl ⟨.model e, rfl, rfl⟩
        | ok fairness =>
          cases m.transFormulas s.extendTrans with
          | error e => exact .inl ⟨.model e, rfl, rfl⟩
          | ok trans => exact .inr ⟨k, r, r', scope, _, rfl, rfl, halike⟩

theorem exists_slicesOn {k : Nat} {indexes : List Int} (hnodup : indexes.Nodup)
    (hrange : ∀ i ∈ indexes, 0 ≤ i ∧ i < k) :
    ∃ slices, slicesOn k indexes = .ok slices ∧ Slice.OverCurrent k slices := by
  let vars := indexes.map fun i => (Scope.slotOf i).1
  have hmap : (indexes.mapM fun (i : Int) => if i < 0 ∨ (k : Int) ≤ i then
      Except.error (RunError.sliceIndex i) else .ok (Scope.slotOf i).1) = .ok vars := by
    rw [Attempt.mapM_eq_ok, List.forall₂_map_right_iff, List.forall₂_same]
    intro i hi
    obtain ⟨hpos, hlt⟩ := hrange i hi
    exact if_neg (by omega)
  have hnodup' : vars.Nodup := by
    refine hnodup.map fun i j hij => ?_
    have hij : 2 * i = 2 * j := hij
    omega
  have hvars : ∀ v ∈ vars, ∃ i : Fin k, v = currentVar i := by
    intro v hv
    obtain ⟨i, hi, rfl⟩ := List.mem_map.mp hv
    obtain ⟨hpos, hlt⟩ := hrange i hi
    refine ⟨⟨i.toNat, by omega⟩, ?_⟩
    unfold Scope.slotOf currentVar
    push_cast
    omega
  have hall : Slice.all vars = .ok (vars.foldl Slice.split [[]]) := by
    refine Slice.all_eq_ok_iff.mpr ⟨hnodup', fun v hv => ?_, rfl⟩
    obtain ⟨i, rfl⟩ := hvars v hv
    omega
  refine ⟨_, ?_, .inr ⟨vars, hvars, hall⟩⟩
  unfold slicesOn
  rw [hmap, Attempt.ok_bind, hall]
  rfl

/-- Valid settings make a sound strategy. -/
theorem exists_makeStrategy (hs : s.Valid m) {p : Product n} {init : Diagram n}
    {constraints : List (Diagram n)} {method : Method}
    (hmake : Relation.make m.vars.length init constraints method = .ok p.relation) :
    ∃ strategy, s.makeStrategy p m.vars.length = .ok strategy ∧ strategy.engine.Sound := by
  obtain ⟨forward, hforward, hfover⟩ := exists_slicesOn hs.forward.1 hs.forward.2
  obtain ⟨backward, hbackward, hbover⟩ := exists_slicesOn hs.backward.1 hs.backward.2
  have hvars : p.relation.numVars = m.vars.length := by
    rw [(Relation.make_eq_ok hmake).1, Int.toNat_natCast]
  suffices hstrategy : ∃ strategy, Strategy.make p ⟨s.strategyName, forward, backward, s.executors,
      s.verbose⟩ = .ok strategy ∧ strategy.engine.Sound by
    obtain ⟨strategy, hok, hsound⟩ := hstrategy
    refine ⟨strategy, ?_, hsound⟩
    simp only [makeStrategy, hforward, hbackward, Attempt.ofRefusal, Except.mapError,
      Attempt.ok_bind, hok, Attempt.restate]
  rw [← hvars] at hfover hbover
  have hmessages : (Strategy.messagePassing p forward backward s.verbose).engine.Sound :=
    Networks.sound_of_slices hmake hfover hbover
  have hname := hs.strategy
  simp only [List.mem_cons, List.not_mem_nil, or_false] at hname
  unfold Strategy.make
  rcases hname with hname | hname | hname | hname
  · rw [hname]
    exact ⟨_, rfl, trivial⟩
  · obtain ⟨pool, hpool, hfaithful, -⟩ := ForkJoin.exists_make hmake s.executors
    rw [hname, hpool]
    exact ⟨_, rfl, hfaithful⟩
  · rw [hname]
    exact ⟨_, rfl, hmessages⟩
  · rw [hname]
    exact ⟨_, rfl, hmessages⟩

def Ends (s : Settings) (translator : Translator) (ending : Option Ending) (m : Model)
    (result : Attempt RunError Response) : Prop :=
  match s.prepare m with
  | .error e => result = .error e
  | .ok ready =>
    match ((translator ending ready.formula).automaton ready.scope).restate .translator with
    | .error e => result = .error e
    | .ok (automaton : Automaton ready.varnum) =>
      let p : Product ready.varnum := ⟨ready.relation, automaton⟩
      match s.makeStrategy p m.vars.length with
      | .error e => result = .error e
      | .ok strategy =>
        if s.safety then result = .ok p.checkSafety
        else ∃ answer, strategy.Checks answer ∧ result = Attempt.ofMisuse answer

/-- The check that is carried out is one of those that may be. -/
theorem ends_run (s : Settings) (translator : Translator) (ending : Option Ending) (m : Model) :
    s.Ends translator ending m (s.run translator ending m).result := by
  unfold Ends
  cases hready : s.prepare m with
  | error e => simp only [run, hready]
  | ok ready =>
    dsimp only
    cases ha : (translator ending ready.formula).automaton ready.scope with
    | error e => simp only [run, hready, ha, Attempt.restate, Except.mapError]
    | ok a =>
      simp only [Attempt.restate, Except.mapError]
      cases hstrategy : s.makeStrategy ⟨ready.relation, a⟩ m.vars.length with
      | error e => simp only [run, hready, ha, Attempt.restate, Except.mapError, hstrategy]
      | ok strategy =>
        dsimp only
        rw [run_eq_decide hready ha hstrategy]
        unfold decide
        split
        · rfl
        · exact ⟨_, strategy.checks_check s.verbose, rfl⟩

/-- However a check of a model is carried out, by valid settings with the same assumptions and the
same kind of property, it ends in the same way, where the initial states and the labels are sets of
states: it is refused for the same reason, or it gives the same answer after as many fair
iterations. -/
theorem ends_agree (hs : s.Valid m) (ht : t.Valid m) (hsafety : s.safety = t.safety)
    (htrans : s.extendTrans = t.extendTrans) (translator : Translator) (ending : Option Ending)
    (hstates : ∀ (ready : Prepared) (a : Automaton ready.varnum), s.prepare m = .ok ready →
      (translator ending ready.formula).automaton ready.scope = .ok a →
        ready.relation.init.OverCurrent ready.relation.numVars ∧
          ∀ e ∈ a.edges, e.label.OverCurrent ready.relation.numVars) :
    s.Ends translator ending m (s.run translator ending m).result ∧
      t.Ends translator ending m (t.run translator ending m).result ∧
      ∀ x y, s.Ends translator ending m x → t.Ends translator ending m y →
        (∃ e, x = .error (.refused e) ∧ y = .error (.refused e)) ∨
          ∃ b c, x = .ok b ∧ y = .ok c ∧ b.Agrees c := by
  refine ⟨ends_run s translator ending m, ends_run t translator ending m, fun x y hx hy => ?_⟩
  unfold Ends at hx hy
  rcases prepare_alike hs ht htrans with
    ⟨e, he, he'⟩ | ⟨k, r, r', scope, formula, hready, hready', halike⟩
  · rw [he] at hx
    rw [he'] at hy
    exact .inl ⟨e, hx, hy⟩
  rw [hready] at hx
  rw [hready'] at hy
  dsimp only at hx hy
  obtain ⟨hvarnum, hbuild⟩ := prepare_eq_ok hready
  obtain ⟨hscope, init, cs, -, -, hmake⟩ := Model.build_eq_ok.mp hbuild
  obtain ⟨-, init', cs', -, -, hmake'⟩ := Model.build_eq_ok.mp (prepare_eq_ok hready').2
  rcases (neverMisused_automaton (Model.resolves hscope) hvarnum.ge
    (translator ending formula)).ok_or_refused with ⟨a, ha⟩ | ⟨e, he⟩
  swap
  · rw [he] at hx hy
    exact .inl ⟨.translator e, hx, hy⟩
  rw [ha] at hx hy
  obtain ⟨hinit, hlabels⟩ := hstates _ a hready ha
  obtain ⟨strategy, hstrategy, hsound⟩ := @exists_makeStrategy _ _ _ hs ⟨r, a⟩ _ _ _ hmake
  obtain ⟨strategy', hstrategy', hsound'⟩ := @exists_makeStrategy _ _ _ ht ⟨r', a⟩ _ _ _ hmake'
  simp only [Attempt.restate, Except.mapError, hstrategy] at hx
  simp only [Attempt.restate, Except.mapError, hstrategy', ← hsafety] at hy
  have hne := Relation.parts_ne_nil hmake
  have hne' := Relation.parts_ne_nil hmake'
  split at hx
  · next hsafe =>
    rw [if_pos hsafe, ← halike.checkSafety_eq hne hne'] at hy
    exact .inr ⟨_, _, hx, hy, rfl, rfl, rfl, rfl, rfl⟩
  · next hlive =>
    rw [if_neg hlive] at hy
    obtain ⟨answer, hcheck, rfl⟩ := hx
    obtain ⟨answer', hcheck', rfl⟩ := hy
    obtain ⟨b, c, rfl, rfl, hagrees⟩ := halike.checks (overStates_of_prepare hready a hlabels) hne'
      hinit hsound hsound' hcheck hcheck'
    exact .inr ⟨b, c, rfl, rfl, hagrees⟩

/-- Workers for the values of both variables forward and of one backward, with the relation in one
part. -/
def crew : Settings :=
  { default with parallel := true, forwardVars := [1, 0], backwardVars := [0], method := .monolithic }

theorem valid_crew : default.Valid .blinker ∧ crew.Valid .blinker := by
  refine ⟨⟨by decide, by decide, by decide, nofun⟩, ⟨by decide, by decide, by decide, nofun⟩⟩

theorem prepare_blinker : ∃ ready, default.prepare .blinker = .ok ready ∧
    ready.relation.init.OverCurrent ready.relation.numVars := by
  have hn : Model.blinker.varnum ≤ 4 := by decide
  have hmethod : ∀ code, Method.partition ≠ .other code := nofun
  obtain ⟨⟨r, scope⟩, hbuild⟩ := (Model.exists_build_iff hn hmethod).mpr Model.buildable_blinker
  obtain ⟨hvars, hinit, -⟩ := Model.meaning_of_build hn hbuild
  obtain ⟨-, f, hf, -, hd⟩ := Model.expands_blinker
  have hres := Model.resolves (Model.build_eq_ok.mp hbuild).1
  have hready : default.prepare .blinker = .ok ⟨4, r, scope, negatedSpec "x" [] []⟩ :=
    prepare_of_build (by decide) (by decide +kernel) rfl hbuild rfl rfl
  refine ⟨_, hready, fun σ τ h => ?_⟩
  have hvalue : ∀ σ, r.init.eval σ = σ 0 := by
    intro σ
    rw [Bool.eq_iff_iff, hinit, or_iff_right (by decide)]
    refine (Model.yields_iff_of_expands hres hf hd σ true).trans ?_
    change (!(!σ 0)) = true ↔ σ 0 = true
    rw [Bool.not_not]
  have hzero : IsCurrent r.numVars 0 := ⟨by rw [hvars]; decide, rfl⟩
  rw [hvalue, hvalue, h 0 hzero]

/-- Whatever the workers of the crew do, they answer as one search does. -/
theorem ends_agree_blinker : ∃ response,
    (default.run (.constant NeverClaim.endless) none .blinker).result = .ok response ∧
      ∀ y, crew.Ends (.constant NeverClaim.endless) none .blinker y →
        ∃ answer, y = .ok answer ∧ response.Agrees answer := by
  obtain ⟨ready, hready, hinit⟩ := prepare_blinker
  have ha := @automaton_endless ready.varnum ready.scope none ready.formula
  have hlabels : ∀ e ∈ (Automaton.loop ready.varnum).edges,
      e.label.OverCurrent ready.relation.numVars := by
    intro e he
    obtain rfl := List.mem_singleton.mp he
    exact .const true
  obtain ⟨hdefault, hcrew⟩ := valid_crew
  obtain ⟨hends, -, hagree⟩ := ends_agree hdefault hcrew rfl rfl (.constant NeverClaim.endless) none
    fun ready' a hready' ha' => by
      obtain rfl : ready = ready' := Except.ok.inj (hready.symm.trans hready')
      obtain rfl := Except.ok.inj (ha.symm.trans ha')
      exact ⟨hinit, hlabels⟩
  let strategy : Strategy ⟨ready.relation, .loop ready.varnum⟩ := .sequential _ false
  obtain ⟨response, hresponse⟩ :=
    @exists_decide default .blinker ready hready _ strategy rfl hinit hlabels
  have hrun := @run_eq_decide default .blinker _ none ready hready _ ha strategy rfl
  rw [hresponse] at hrun
  refine ⟨response, hrun, fun y hy => ?_⟩
  rcases hagree _ y hends hy with ⟨e, he, -⟩ | ⟨b, c, hb, rfl, hbc⟩
  · cases hrun.symm.trans he
  · cases hrun.symm.trans hb
    exact ⟨c, rfl, hbc⟩

end Settings
end SymbolicLtl
