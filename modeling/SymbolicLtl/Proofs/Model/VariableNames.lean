import SymbolicLtl.Proofs.Model.InitialStates

/-!
Which variables of a model its formulas can speak of. A model is valid whatever its variables are
called, short of `next` and the empty name, but a formula reads only identifiers as names. A variable
with another name is part of the states, and nothing that is written refers to it.
-/
namespace SymbolicLtl

namespace Formula

variable {x : String} {f : Formula}

theorem mem_names_iff : x ∈ f.names ↔ f.readsCurrent x = true ∨ f.readsNext x = true := by
  induction f with
  | const v => simp [names, readsCurrent, readsNext]
  | ident y =>
    simp only [names, readsCurrent, readsNext, List.mem_singleton, beq_iff_eq, Bool.false_eq_true,
      or_false]
    exact eq_comm
  | next y =>
    simp only [names, readsCurrent, readsNext, List.mem_singleton, beq_iff_eq, Bool.false_eq_true,
      false_or]
    exact eq_comm
  | not a ih => exact ih
  | binary op a b iha ihb =>
    simp only [names, readsCurrent, readsNext, List.mem_append, Bool.or_eq_true, iha, ihb]
    exact or_or_or_comm

/-- A name is read as itself exactly if it is an identifier. -/
theorem parse_ident_iff : parse x = .ok (.ident x) ↔ Token.isIdentifier x = true := by
  constructor
  · intro h
    exact isIdentifier_of_parse h x (by simp [names])
  · intro hx
    exact parse_render (f := .ident x) (by simpa [names] using hx)

theorem parse_next_iff :
    parse ("next(" ++ x ++ ")") = .ok (.next x) ↔ Token.isIdentifier x = true := by
  constructor
  · intro h
    exact isIdentifier_of_parse h x (by simp [names])
  · intro hx
    exact parse_render (f := .next x) (by simpa [names] using hx)

end Formula

theorem Diagram.DependsOnly.of_var {n : Nat} {c : Fin n} {P : Nat → Prop}
    (h : (Diagram.var c).DependsOnly P) : P c := by
  by_contra hc
  have hsame : (Diagram.var c).eval (fun v => v == c.val) = (Diagram.var c).eval fun _ => false := by
    refine h _ _ fun v hv => ?_
    have hne : v ≠ c := fun he => hc (he ▸ hv)
    simpa using hne
  simp at hsame

namespace Scope

theorem compile_ident_of_variable {n : Nat} {s : Scope} {x : String} {c : Fin n} {next : Int}
    (hx : s.lookup x = some (.variable c next)) : s.compile (.ident x) = .ok (Diagram.var c) := by
  rw [compile_eq, compileIn]
  split
  · next current _ heq =>
    cases hx.symm.trans heq
    rw [Diagram.checkVar_val]
    rfl
  · next heq => cases hx.symm.trans heq
  · next heq => cases hx.symm.trans heq

theorem compile_next_of_variable {n : Nat} {s : Scope} {x : String} {current : Int} {c : Fin n}
    (hx : s.lookup x = some (.variable current c)) : s.compile (.next x) = .ok (Diagram.var c) := by
  rw [compile_eq, compileIn, hx]
  dsimp only
  rw [Diagram.checkVar_val]
  rfl

end Scope

namespace Model

variable {m : Model} {n : Nat} {s : Scope}

theorem Resolves.isIdentifier_of_depends (h : m.Resolves s) {x y : String} (hd : s.Depends x y) :
    Token.isIdentifier y = true := by
  obtain ⟨f, hlookup, hread⟩ := hd
  obtain ⟨text, -, hf⟩ := h.of_define hlookup
  exact Formula.isIdentifier_of_parse hf y (Formula.mem_names_iff.mpr (.inl hread))

/-- A written formula reaches identifiers only: its own names and those of the abbreviations, which are
written formulas too. -/
theorem Resolves.isIdentifier_of_reaches (h : m.Resolves s) {text : String} {f : Formula}
    (hf : Formula.parse text = .ok f) {y : String} (hreach : s.Reaches f y) :
    Token.isIdentifier y = true := by
  obtain ⟨x, hread, hpath⟩ := hreach
  rcases Relation.ReflTransGen.cases_tail hpath with rfl | ⟨z, -, hlast⟩
  · exact Formula.isIdentifier_of_parse hf y (Formula.mem_names_iff.mpr (.inl hread))
  · exact h.isIdentifier_of_depends hlast

theorem Resolves.isIdentifier_of_reachesNext (h : m.Resolves s) {text : String} {f : Formula}
    (hf : Formula.parse text = .ok f) {y : String} (hreach : s.ReachesNext f y) :
    Token.isIdentifier y = true := by
  rcases hreach with hread | ⟨z, g, -, hlookup, hread⟩
  · exact Formula.isIdentifier_of_parse hf y (Formula.mem_names_iff.mpr (.inr hread))
  · obtain ⟨text', -, hg⟩ := h.of_define hlookup
    exact Formula.isIdentifier_of_parse hg y (Formula.mem_names_iff.mpr (.inr hread))

theorem Resolves.dependsOnly_of_compileText (h : m.Resolves s) (hn : m.varnum ≤ n) {text : String}
    {d : Diagram n} (hd : s.compileText text = .ok d) : d.DependsOnly fun v => ∃ x ∈ m.vars,
      Token.isIdentifier x = true ∧
        (v = currentVar (m.vars.idxOf x) ∨ v = nextVar (m.vars.idxOf x)) := by
  obtain ⟨f, hf, hd⟩ := compileText_eq_ok.mp hd
  refine (h.dependsOnly_of_compile hn hd).mono fun v hv => ?_
  obtain ⟨x, hx, ⟨hreach, hv⟩ | ⟨hreach, hv⟩⟩ := hv
  · exact ⟨x, hx, h.isIdentifier_of_reaches hf hreach, .inl hv⟩
  · exact ⟨x, hx, h.isIdentifier_of_reachesNext hf hreach, .inr hv⟩

theorem varnum_le_of_build {method : Method} {r : Relation n} (h : m.build n method = .ok (r, s)) :
    m.varnum ≤ n := by
  obtain ⟨-, init, cs, -, -, hmake⟩ := build_eq_ok.mp h
  obtain ⟨hvars, -⟩ := Relation.make_eq_ok hmake
  have hfits := r.fits
  rwa [hvars] at hfits

/-- A variable whose name is no identifier has no influence on what is written. -/
theorem Resolves.dependsOnly_of_not_identifier (h : m.Resolves s) (hn : m.varnum ≤ n) {i : Nat}
    {x : String} (hx : m.vars[i]? = some x) (hname : Token.isIdentifier x = false) {text : String}
    {d : Diagram n} (hd : s.compileText text = .ok d) :
    d.DependsOnly fun v => v ≠ currentVar i ∧ v ≠ nextVar i := by
  refine (h.dependsOnly_of_compileText hn hd).mono fun v hv => ?_
  obtain ⟨y, hy, hidentifier, hv⟩ := hv
  have hother : m.vars.idxOf y ≠ i := by
    rintro rfl
    rw [List.getElem?_eq_getElem (List.idxOf_lt_length_of_mem hy), List.getElem_idxOf] at hx
    cases hx
    rw [hname] at hidentifier
    cases hidentifier
  unfold currentVar nextVar at *
  omega

/-- A variable can be referred to if and only if its name is an identifier. Then the name is compiled to
the diagram variable of its current value, and below `next` to that of its next value. Otherwise nothing
that is written depends on either. -/
theorem referable_iff_identifier {i : Nat} {x : String} (hx : m.vars[i]? = some x) :
    (Formula.parse x = .ok (.ident x) ↔ Token.isIdentifier x = true) ∧
    (Formula.parse ("next(" ++ x ++ ")") = .ok (.next x) ↔ Token.isIdentifier x = true) ∧
    ∀ (n : Nat) (method : Method) (r : Relation n) (s : Scope), m.build n method = .ok (r, s) →
      ∃ current next : Fin n, current.val = 2 * i ∧ next.val = 2 * i + 1 ∧
        (s.compileText x = .ok (.var current) ↔ Token.isIdentifier x = true) ∧
        (s.compileText ("next(" ++ x ++ ")") = .ok (.var next) ↔ Token.isIdentifier x = true) ∧
        (Token.isIdentifier x = false → ∀ text (d : Diagram n), s.compileText text = .ok d →
          d.DependsOnly fun v => v ≠ current.val ∧ v ≠ next.val) := by
  refine ⟨Formula.parse_ident_iff, Formula.parse_next_iff, fun n method r s h => ?_⟩
  have hs : m.scope = .ok s := (build_eq_ok.mp h).1
  have hn : m.varnum ≤ n := varnum_le_of_build h
  have hnext : nextVar i < n := nextVar_lt_of_getElem? hn hx
  have hcurrent : currentVar i < n := Nat.lt_of_succ_lt hnext
  have hlookup := lookup_variable hs hx
  have hsilent : Token.isIdentifier x = false → ∀ text (d : Diagram n), s.compileText text = .ok d →
      d.DependsOnly fun v => v ≠ currentVar i ∧ v ≠ nextVar i := by
    intro hname text d hd
    exact (resolves hs).dependsOnly_of_not_identifier hn hx hname hd
  refine ⟨⟨currentVar i, hcurrent⟩, ⟨nextVar i, hnext⟩, rfl, rfl, ⟨fun hd => ?_, fun hname => ?_⟩,
    ⟨fun hd => ?_, fun hname => ?_⟩, hsilent⟩
  · by_contra hname
    have hdepends := hsilent (by simpa using hname) _ _ hd
    exact hdepends.of_var.1 rfl
  · have hcompile := Scope.compile_ident_of_variable (c := ⟨currentVar i, hcurrent⟩) hlookup
    exact compileText_eq_ok.mpr ⟨_, Formula.parse_ident_iff.mpr hname, hcompile⟩
  · by_contra hname
    have hdepends := hsilent (by simpa using hname) _ _ hd
    exact hdepends.of_var.2 rfl
  · have hcompile := Scope.compile_next_of_variable (c := ⟨nextVar i, hnext⟩) hlookup
    exact compileText_eq_ok.mpr ⟨_, Formula.parse_next_iff.mpr hname, hcompile⟩

/-- A variable with the name of a constant, beside one with a name of its own. -/
def homonym : Model where
  vars := ["x", "true"]
  ltlspec := "x"

theorem exists_build_homonym :
    ∃ (r : Relation 4) (s : Scope), homonym.build 4 .partition = .ok (r, s) := by
  have hmethod : ∀ code, Method.partition ≠ .other code := by
    intro code h
    cases h
  have htransitions : homonym.Transitions homonym.Expandable := by
    refine ⟨fun x _ text hlookup => ?_, by simp [homonym]⟩
    simp [homonym] at hlookup
  have hbuildable : homonym.Buildable :=
    ⟨by decide, by simp [homonym], fun hinit => absurd rfl hinit, htransitions⟩
  obtain ⟨⟨r, s⟩, h⟩ := (exists_build_iff (n := 4) (by decide) hmethod).mpr hbuildable
  exact ⟨r, s, h⟩

theorem referable_homonym : ∃ (r : Relation 4) (s : Scope),
    homonym.build 4 .partition = .ok (r, s) ∧
    (∃ current next : Fin 4, current.val = 0 ∧ next.val = 1 ∧
      s.compileText "x" = .ok (.var current) ∧ s.compileText "next(x)" = .ok (.var next)) ∧
    ∀ text (d : Diagram 4), s.compileText text = .ok d → d.DependsOnly fun v => v ≠ 2 ∧ v ≠ 3 := by
  obtain ⟨r, s, h⟩ := exists_build_homonym
  obtain ⟨-, -, hown⟩ := referable_iff_identifier (m := homonym) (i := 0) (x := "x") rfl
  obtain ⟨-, -, htaken⟩ := referable_iff_identifier (m := homonym) (i := 1) (x := "true") rfl
  have hx : Token.isIdentifier "x" = true := by decide +kernel
  obtain ⟨current, next, hcurrent, hnext, hident, hstep, -⟩ := hown 4 .partition r s h
  obtain ⟨current', next', hcurrent', hnext', -, -, hsilent⟩ := htaken 4 .partition r s h
  refine ⟨r, s, h, ⟨current, next, hcurrent, hnext, hident.mpr hx, hstep.mpr hx⟩, fun text d hd => ?_⟩
  have hdepends := hsilent (by decide +kernel) text d hd
  rwa [hcurrent', hnext'] at hdepends

/-- The model is valid and is built. The name of its second variable is read as the constant and compiled
to it, and below `next` it is not compiled to the next value of the variable. -/
theorem valid_homonym : homonym.validate = .ok () ∧ homonym.vars[1]? = some "true" ∧
    Formula.parse "true" = .ok (.const true) ∧ Formula.parse "next(true)" ≠ .ok (.next "true") ∧
    ∃ (r : Relation 4) (s : Scope), homonym.build 4 .partition = .ok (r, s) ∧
      s.compileText "true" = .ok (.const true : Diagram 4) ∧
      ∀ c : Fin 4, c.val = 3 → s.compileText "next(true)" ≠ .ok (.var c) := by
  have hstart : Token.isNameStart 't' = true := by decide +kernel
  have hchars : ['r', 'u', 'e'].all Token.isNameChar = true := by decide +kernel
  have hparse : Formula.parse "true" = .ok (.const true) :=
    Formula.parse_of_yields (Formula.yields_word hstart (List.all_eq_true.mp hchars) rfl)
      fun _ _ h => h.of_unary (by simp)
  have hname : Token.isIdentifier "true" = false := by decide +kernel
  have hnext : Formula.parse "next(true)" ≠ .ok (.next "true") := by
    intro h
    have hidentifier := (Formula.parse_next_iff (x := "true")).mp h
    rw [hname] at hidentifier
    cases hidentifier
  obtain ⟨r, s, h⟩ := exists_build_homonym
  have hres := resolves (build_eq_ok.mp h).1
  refine ⟨rfl, rfl, hparse, hnext, r, s, h, compileText_eq_ok.mpr ⟨_, hparse, ?_⟩, fun c hc hd => ?_⟩
  · rw [Scope.compile_eq, Scope.compileIn]
    rfl
  · have hdepends := hres.dependsOnly_of_not_identifier (i := 1) (by decide) rfl hname hd
    exact hdepends.of_var.2 hc

end Model
end SymbolicLtl
