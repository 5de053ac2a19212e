import SymbolicLtl.Proofs.Service.Messages
import SymbolicLtl.Proofs.Verifier.Misuse
import SymbolicLtl.Service.Server

/-!
What a client is told about a model that is at fault. It is told that its request is invalid, with
the reason, except when an abbreviation has the name of a variable: that one is reported as an
unknown error.
-/
namespace SymbolicLtl

open Attempt

namespace Model

variable {m : Model} {n : Nat}

/-- What a model is refused for: a fault of its own, or a name for a variable and an abbreviation. -/
def Fault (m : Model) (e : ModelError) : Prop :=
  e.isInvalid = true ∨
    ∃ x ∈ m.vars, x ∈ m.defines.map Prod.fst ∧ e = .scope (.redeclared x)

theorem nodup_of_checkNames {seen l : List String} (h : checkNames seen l = .ok ()) :
    l.Nodup ∧ ∀ x ∈ l, x ∉ seen := by
  induction l generalizing seen with
  | nil => exact ⟨.nil, by simp⟩
  | cons v rest ih =>
    unfold checkNames at h
    split_ifs at h with hname hseen
    obtain ⟨hnodup, hnew⟩ := ih h
    refine ⟨List.nodup_cons.mpr ⟨fun hv => hnew v hv List.mem_cons_self, hnodup⟩, ?_⟩
    rw [List.forall_mem_cons]
    exact ⟨hseen, fun x hx hmem => hnew x hx (List.mem_cons_of_mem v hmem)⟩

theorem nodup_of_validate (h : m.validate = .ok ()) : m.vars.Nodup := by
  unfold validate at h
  dsimp only at h
  by_cases hempty : m.vars.isEmpty = true
  · rw [if_pos hempty] at h
    cases h
  · rw [if_neg hempty] at h
    obtain ⟨⟨⟩, hnames, -⟩ := bind_eq_ok.mp h
    exact (nodup_of_checkNames hnames).1

theorem bind_eq_error_redeclared {s : Scope} {x : String} {b : Binding} {e : ScopeError}
    (h : s.bind x b = .error e) : e = .redeclared x ∧ x ∈ s.entries.map Prod.fst := by
  by_cases hx : x ∈ s.entries.map Prod.fst
  · refine ⟨?_, hx⟩
    unfold Scope.bind at h
    split at h
    · cases h
      rfl
    · cases h
  · rw [Scope.bind_eq_ok.mpr ⟨hx, rfl⟩] at h
    cases h

/-- Abbreviations are added after the variables. One that was added before is not among those still
to come, so only the name of a variable can be in the way. -/
theorem failsAs_defines {l : List (String × String)} (hkeys : (l.map Prod.fst).Nodup)
    (hl : ∀ x ∈ l.map Prod.fst, x ∈ m.defines.map Prod.fst) {s : Scope}
    (hs : ∀ x ∈ s.entries.map Prod.fst, x ∈ l.map Prod.fst → x ∈ m.vars) :
    FailsAs m.Fault (l.foldlM (fun s (name, text) => do
      let f ← (Formula.parse text).mapError (ModelError.badDefine name)
      (s.define name f).mapError .scope) s) := by
  induction l generalizing s with
  | nil => exact .ok s
  | cons d l ih =>
    obtain ⟨x, text⟩ := d
    rw [List.map_cons, List.nodup_cons] at hkeys
    rw [List.foldlM_cons]
    apply FailsAs.bind
    · refine FailsAs.bind (.mapError fun _ _ => .inl rfl) fun f _ => .mapError fun e he => ?_
      obtain ⟨rfl, hx⟩ := bind_eq_error_redeclared he
      exact .inr ⟨x, hs x hx List.mem_cons_self, hl x List.mem_cons_self, rfl⟩
    · intro s' hs'
      obtain ⟨f, -, hs'⟩ := bind_eq_ok.mp hs'
      obtain ⟨-, rfl⟩ := Scope.bind_eq_ok.mp ((mapError_eq_ok_iff _).mp hs')
      refine ih hkeys.2 (fun y hy => hl y (List.mem_cons_of_mem x hy)) fun y hy hyl => ?_
      rw [List.map_append, List.mem_append] at hy
      rcases hy with hy | hy
      · exact hs y hy (List.mem_cons_of_mem x hyl)
      · obtain rfl := List.mem_singleton.mp hy
        exact absurd hyl hkeys.1

theorem failsAs_scope (hvars : m.vars.Nodup) (htables : m.Tabular) : FailsAs m.Fault m.scope := by
  have hscope : Scope.ofVars m.vars = .ok ⟨m.varEntries⟩ := m.ofVars_eq_ok.mpr ⟨hvars, rfl⟩
  unfold scope
  rw [hscope]
  refine failsAs_defines htables.defines (fun x hx => hx) fun x hx _ => ?_
  rwa [map_fst_varEntries] at hx

theorem refusesAs_initialSet (s : Scope) : RefusesAs m.Fault (m.initialSet n s) := by
  unfold initialSet
  split
  · exact .ok _
  refine RefusesAs.bind (.ofRefusal (.mapError fun _ _ => .inl rfl)) fun f _ => ?_
  split
  · exact .refuse (.inl rfl)
  · exact .restate fun _ _ => .inl rfl

theorem refusesAs_constraints (s : Scope) : RefusesAs m.Fault (m.constraints n s) := by
  have hassigned : ∀ e ∈ m.vars.zipIdx, RefusesAs m.Fault (m.assignmentOf n s e) := by
    intro e _
    unfold assignmentOf
    split
    · refine RefusesAs.bind ?_ fun _ _ => .ok _
      refine RefusesAs.bind (.restate fun _ _ => .inl rfl) fun value _ => ?_
      exact RefusesAs.bind (.ofMisuse _) fun _ _ => .ok _
    · exact .ok _
  apply RefusesAs.bind (.filterMapM hassigned)
  intro as _
  exact RefusesAs.bind (.mapM fun _ _ => .restate fun _ _ => .inl rfl) fun _ _ => .ok _

/-- With enough diagram variables and a method there is a relation of any constraints. -/
theorem refusesAs_build (hvars : m.vars.Nodup) (htables : m.Tabular) (hn : m.varnum ≤ n)
    {method : Method} (hmethod : ∀ code, method ≠ .other code) :
    RefusesAs m.Fault (m.build n method) := by
  unfold build
  apply RefusesAs.bind (.ofRefusal (failsAs_scope hvars htables))
  intro s _
  apply RefusesAs.bind (refusesAs_initialSet s)
  intro init _
  apply RefusesAs.bind (refusesAs_constraints s)
  intro cs _
  obtain ⟨parts, hparts⟩ := Relation.exists_partsOf hmethod cs
  rw [Relation.make_eq hn init hparts]
  exact .ok _

theorem failsAs_parseAll (list : String) (texts : List String) :
    FailsAs m.Fault (parseAll list texts) :=
  .mapM fun _ _ => .mapError fun _ _ => .inl rfl

theorem failsAs_transFormulas (indexes : List Int) : FailsAs m.Fault (m.transFormulas indexes) := by
  unfold transFormulas
  refine FailsAs.bind (.mapM fun k _ => ?_) fun texts _ => failsAs_parseAll "trans" texts
  split
  · exact .ok _
  · exact .error (.inl rfl)

end Model

namespace RunError

def Blames (m : Model) (e : RunError) : Prop := ∀ e', e = .model e' → m.Fault e'

end RunError

namespace Settings

variable {s : Settings} {m : Model}

theorem refusesAs_prepare (hvalid : m.validate = .ok ()) (htables : m.Tabular)
    (hmethod : ∀ code, s.method ≠ .other code) :
    RefusesAs (RunError.Blames m) (s.prepare m) := by
  have hmodel : ∀ {e : ModelError}, m.Fault e → RunError.Blames m (.model e) := by
    intro e he e' h
    cases h
    exact he
  unfold prepare
  rw [hvalid]
  dsimp only
  by_cases hspec : m.ltlspec = ""
  · rw [if_pos hspec]
    exact RefusesAs.bind (.refuse fun _ h => by cases h) fun _ h => by cases h
  rw [if_neg hspec]
  refine RefusesAs.bind (.ok _) fun _ _ => ?_
  refine RefusesAs.bind (.ofRefusal (.mapError fun _ _ _ h => by cases h)) fun k hk => ?_
  have hk := (mapError_eq_ok_iff _).mp ((mapError_eq_ok_iff _).mp hk)
  have hle : m.varnum ≤ k := (checkVarnum_eq_ok hk).ge
  have hbuild := m.refusesAs_build (Model.nodup_of_validate hvalid) htables hle hmethod
  refine RefusesAs.bind (.restate fun e he => hmodel (hbuild e he)) fun b _ => ?_
  have hfairness := m.failsAs_parseAll "fairness" m.fairness
  refine RefusesAs.bind (.ofRefusal (.mapError fun e he => hmodel (hfairness e he))) fun fs _ => ?_
  have htrans := m.failsAs_transFormulas s.extendTrans
  exact RefusesAs.bind (.ofRefusal (.mapError fun e he => hmodel (htrans e he))) fun _ _ => .ok _

theorem refusesAs_makeStrategy {n : Nat} (p : Product n) (numVars : Nat) :
    RefusesAs (RunError.Blames m) (s.makeStrategy p numVars) := by
  have hslices : ∀ indexes : List Int, FailsAs (RunError.Blames m) (slicesOn numVars indexes) := by
    intro indexes
    refine FailsAs.bind (.mapM fun i _ => ?_) fun _ _ => .mapError fun _ _ _ h => by cases h
    split
    · exact .error fun _ h => by cases h
    · exact .ok _
  apply RefusesAs.bind (.ofRefusal (hslices _))
  intro forward _
  apply RefusesAs.bind (.ofRefusal (hslices _))
  intro backward _
  exact .restate fun _ _ _ h => by cases h

/-- The errors that a check reports about a valid model are its faults. -/
theorem refusesAs_run (hvalid : m.validate = .ok ()) (htables : m.Tabular)
    (hmethod : ∀ code, s.method ≠ .other code) (translator : Translator) (ending : Option Ending) :
    RefusesAs (RunError.Blames m) (s.run translator ending m).result := by
  unfold run
  dsimp only
  split
  · next e he =>
    intro e' h
    cases h
    exact refusesAs_prepare hvalid htables hmethod e' he
  next ready hready =>
  split
  · next e he =>
    intro e' h
    cases h
    have hanswer : RefusesAs (RunError.Blames m)
        (((translator ending ready.formula).automaton ready.scope :
          Attempt TranslatorError (Automaton ready.varnum)).restate .translator) :=
      .restate fun _ _ _ h => by cases h
    exact hanswer e' he
  next automaton hautomaton =>
  split
  · next e he =>
    intro e' h
    cases h
    exact refusesAs_makeStrategy _ _ e' he
  next strategy hstrategy =>
  split
  · intro e' h
    cases h
  · exact .ok _

end Settings

namespace Server

theorem check_of_settings {s : Server} {ending : Option Ending} {request : JsonValue} {r : Request}
    {settings : Settings} (hrequest : Request.ofValue request = .ok r)
    (hsettings : s.settings r.options = .ok settings) : (s.check ending request).result =
      (settings.run s.translator ending r.model).result.restate fun e => ⟨e.code, e.message⟩ := by
  simp only [check, hrequest, hsettings, Except.mapError, Attempt.ok_bind]
  rfl

/-- A client is told that its request is invalid if a check ends with an error about its model. Only
the name of a variable that an abbreviation takes up again is not reported so. -/
theorem check_blames_model {s : Server} {ending : Option Ending} {request : JsonValue} {r : Request}
    {settings : Settings} (hrequest : Request.ofValue request = .ok r)
    (hsettings : s.settings r.options = .ok settings)
    (hmethod : ∀ code, settings.method ≠ .other code) {e : ModelError}
    (he : (settings.run s.translator ending r.model).result = .error (.refused (.model e))) :
    (∃ reason, e.reason? = some reason ∧ (s.check ending request).result =
      .error (.refused ⟨.invalidArgument, "fsm: invalid model: " ++ reason⟩)) ∨
    ∃ x ∈ r.model.vars, x ∈ r.model.defines.map Prod.fst ∧ e = .scope (.redeclared x) ∧
      (s.check ending request).result =
        .error (.refused ⟨.unknown, "expr: identifier declared twice: " ++ x⟩) := by
  have hresult : (s.check ending request).result =
      .error (.refused ⟨(RunError.model e).code, e.message⟩) := by
    rw [check_of_settings hrequest hsettings, he]
    rfl
  obtain ⟨htables, hvalid⟩ := Request.tabular_of_ofValue hrequest
  rw [hresult]
  rcases Settings.refusesAs_run hvalid htables hmethod _ _ _ he e rfl with
    hinvalid | ⟨x, hx, hdefine, rfl⟩
  · obtain ⟨reason, hreason⟩ := Option.isSome_iff_exists.mp hinvalid
    refine .inl ⟨reason, hreason, ?_⟩
    have hcode : (RunError.model e).code = .invalidArgument := if_pos hinvalid
    have hmessage : e.message = "fsm: invalid model: " ++ reason := by
      simp only [ModelError.message, hreason]
    rw [hcode, hmessage]
  · exact .inr ⟨x, hx, hdefine, rfl, rfl⟩

end Server

namespace Model

def ahead : Model where
  vars := ["x"]
  init := "next(x)"
  ltlspec := "x"

def takenName : Model where
  vars := ["x", "y"]
  defines := [("x", "y")]
  ltlspec := "x"

theorem build_ahead (n : Nat) (method : Method) :
    ahead.build n method = .error (.refused .initRefersToNext) := by
  have hparse : Formula.parse "next(x)" = .ok (.next "x") :=
    Formula.parse_render (f := .next "x") (by decide +kernel)
  have hinit : ∀ s : Scope, ahead.initialSet n s = .error (.refused .initRefersToNext) := by
    intro s
    unfold initialSet
    rw [if_neg (by decide), show ahead.init = "next(x)" from rfl, hparse]
    rfl
  have hscope : ahead.scope = .ok ⟨ahead.varEntries⟩ := rfl
  unfold build
  rw [hscope, ofRefusal, Except.mapError, ok_bind, hinit]
  rfl

theorem build_takenName (n : Nat) (method : Method) :
    takenName.build n method = .error (.refused (.scope (.redeclared "x"))) := by
  have hparse : Formula.parse "y" = .ok (.ident "y") :=
    Formula.parse_render (f := .ident "y") (by decide +kernel)
  have hscope : takenName.scope = .error (.scope (.redeclared "x")) := by
    have hvars : Scope.ofVars takenName.vars = .ok ⟨takenName.varEntries⟩ := rfl
    unfold scope
    rw [hvars, Except.mapError, ok_bind, show takenName.defines = [("x", "y")] from rfl]
    rw [List.foldlM_cons]
    dsimp only
    rw [hparse]
    rfl
  unfold build
  rw [hscope]
  rfl

end Model

namespace Settings

variable {s : Settings} {m : Model}

theorem prepare_of_refused {e : ModelError} (hspec : m.ltlspec ≠ "") (hvalid : m.validate = .ok ())
    (hvarnum : Manager.checkVarnum m.varnum = .ok m.varnum)
    (hbuild : m.build m.varnum s.method = .error (.refused e)) :
    s.prepare m = .error (.refused (.model e)) := by
  unfold prepare
  rw [if_neg hspec, hvalid, hvarnum]
  simp only [Except.mapError, ofRefusal, ok_bind]
  rw [hbuild]
  rfl

theorem run_of_refused {e : ModelError} (hspec : m.ltlspec ≠ "") (hvalid : m.validate = .ok ())
    (hvarnum : Manager.checkVarnum m.varnum = .ok m.varnum)
    (hbuild : m.build m.varnum s.method = .error (.refused e)) (translator : Translator)
    (ending : Option Ending) :
    (s.run translator ending m).result = .error (.refused (.model e)) := by
  unfold run
  rw [prepare_of_refused hspec hvalid hvarnum hbuild]

end Settings

namespace Server

def plain : Server := ⟨[], false, .constant NeverClaim.endless⟩

theorem ofValue_of_no_options {m : Model} (htables : m.Tabular) (hvalid : m.validate = .ok ()) :
    Request.ofValue (Request.toValue ⟨m, {}⟩) = .ok ⟨m, {}⟩ :=
  (Request.writes_toValue _).ofValue_eq htables hvalid ⟨by simp, by simp, by simp, by simp⟩

theorem settings_plain : plain.settings {} = .ok (.ofOptions [.parallel false]) := rfl

/-- A client that asks for a check of this model is told what is wrong with it. -/
theorem check_ahead : (plain.check none (Request.toValue ⟨.ahead, {}⟩)).result =
    .error (.refused
      ⟨.invalidArgument, "fsm: invalid model: init refers to next state values"⟩) := by
  have hrequest := @ofValue_of_no_options .ahead ⟨by decide, by decide⟩ rfl
  have hmethod : ∀ code, (Settings.ofOptions [.parallel false]).method ≠ .other code := by
    intro code h
    cases h
  have hrun := @Settings.run_of_refused (.ofOptions [.parallel false]) .ahead _ (by decide) rfl rfl
    (Model.build_ahead _ _) plain.translator none
  rcases check_blames_model hrequest settings_plain hmethod hrun with
    ⟨reason, hreason, hcheck⟩ | ⟨x, -, -, hx, -⟩
  · cases hreason
    exact hcheck
  · cases hx

/-- The taken name is refused, but not as a fault of the model. -/
theorem check_takenName : (plain.check none (Request.toValue ⟨.takenName, {}⟩)).result =
    .error (.refused ⟨.unknown, "expr: identifier declared twice: x"⟩) := by
  have hrequest := @ofValue_of_no_options .takenName ⟨by decide, by decide⟩ rfl
  have hrun := @Settings.run_of_refused (.ofOptions [.parallel false]) .takenName _ (by decide) rfl
    rfl (Model.build_takenName _ _) plain.translator none
  rw [check_of_settings hrequest settings_plain, hrun]
  rfl

end Server
end SymbolicLtl
