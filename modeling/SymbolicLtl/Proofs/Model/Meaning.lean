import Mathlib.Logic.Function.Basic
import SymbolicLtl.Proofs.Formula.Rendering
import SymbolicLtl.Proofs.Model.Build

/-!
The relation of a model means what the formulas of the model say, in whatever order its abbreviations
are taken up, and leaves alone what no formula speaks of.
-/
namespace SymbolicLtl

namespace Model

variable {m : Model} {n : Nat}

def withDefines (m : Model) (defines : List (String × String)) : Model :=
  { m with defines := defines }

@[simp] theorem vars_withDefines (m : Model) (defines : List (String × String)) :
    (m.withDefines defines).vars = m.vars := rfl

@[simp] theorem init_withDefines (m : Model) (defines : List (String × String)) :
    (m.withDefines defines).init = m.init := rfl

@[simp] theorem next_withDefines (m : Model) (defines : List (String × String)) :
    (m.withDefines defines).next = m.next := rfl

@[simp] theorem trans_withDefines (m : Model) (defines : List (String × String)) :
    (m.withDefines defines).trans = m.trans := rfl

theorem Expands.of_subset {m' : Model} (hvars : m'.vars = m.vars)
    (hdefines : m.defines ⊆ m'.defines) {k : Nat} {f g : Formula} (h : m.Expands k f g) :
    m'.Expands k f g := by
  induction h with
  | const v => exact .const v
  | declared hx => exact .declared (hvars ▸ hx)
  | defined hx hf _ ih => exact .defined (hdefines hx) hf ih
  | next hx => exact .next (hvars ▸ hx)
  | not _ ih => exact .not ih
  | binary op _ _ iha ihb => exact .binary op iha ihb

section Perm

variable {defines : List (String × String)}

theorem expands_perm (h : defines.Perm m.defines) {k : Nat} {f g : Formula} :
    (m.withDefines defines).Expands k f g ↔ m.Expands k f g :=
  ⟨fun hg => hg.of_subset (m.vars_withDefines defines).symm h.subset,
    fun hg => hg.of_subset (m.vars_withDefines defines) h.symm.subset⟩

theorem yields_perm (h : defines.Perm m.defines) {text : String} {σ : Nat → Bool} {v : Bool} :
    (m.withDefines defines).Yields text σ v ↔ m.Yields text σ v := by
  unfold Yields
  simp only [expands_perm h]
  rfl

theorem allows_perm (h : defines.Perm m.defines) {σ : Nat → Bool} :
    (m.withDefines defines).Allows σ ↔ m.Allows σ := by
  constructor
  · rintro ⟨hnext, htrans⟩
    simp only [yields_perm h] at hnext htrans
    exact ⟨hnext, htrans⟩
  · rintro ⟨hnext, htrans⟩
    refine ⟨?_, ?_⟩
    · simpa [yields_perm h] using hnext
    · simpa [yields_perm h] using htrans

theorem buildable_perm (h : defines.Perm m.defines) :
    (m.withDefines defines).Buildable ↔ m.Buildable := by
  have hnames : (m.vars ++ defines.map Prod.fst).Nodup ↔
      (m.vars ++ m.defines.map Prod.fst).Nodup := ((h.map _).append_left _).nodup_iff
  have hexpandable : (m.withDefines defines).Expandable = m.Expandable := by
    funext text
    unfold Expandable
    simp only [expands_perm h]
  constructor
  · rintro ⟨hn, hd, hi, ht⟩
    simp only [expands_perm h] at hi
    rw [hexpandable] at ht
    exact ⟨hnames.mp hn, fun d hmem => hd d (h.mem_iff.mpr hmem), hi, ht.next, ht.trans⟩
  · rintro ⟨hn, hd, hi, ht⟩
    refine ⟨hnames.mpr hn, fun d hmem => hd d (h.mem_iff.mp hmem), ?_, ?_⟩
    · simpa [expands_perm h] using hi
    · rw [hexpandable]
      exact ⟨ht.next, ht.trans⟩

end Perm

/-- No assignment and no constraint speaks of the next value of a variable. -/
structure Free (m : Model) (x : String) : Prop where
  unassigned : m.next.lookup x = none
  unread : m.Transitions fun text => ∀ f k g, Formula.parse text = .ok f → m.Expands k f g →
    g.readsNext x = false

theorem currentValue_update (m : Model) (σ : Nat → Bool) (i : Nat) (b : Bool) :
    m.currentValue (Function.update σ (nextVar i) b) = m.currentValue σ := by
  funext x
  have hne : currentVar (m.vars.idxOf x) ≠ nextVar i := by
    unfold currentVar nextVar
    omega
  exact Function.update_of_ne hne b σ

theorem nextValue_update {i : Nat} {x y : String} (hx : m.vars[i]? = some x) (hy : y ≠ x)
    (σ : Nat → Bool) (b : Bool) :
    m.nextValue (Function.update σ (nextVar i) b) y = m.nextValue σ y := by
  have hne : nextVar (m.vars.idxOf y) ≠ nextVar i := by
    intro heq
    have hi : m.vars.idxOf y = i := by
      unfold nextVar at heq
      omega
    obtain ⟨hlt, hget⟩ := List.getElem?_eq_some_iff.mp hx
    subst hi
    exact hy ((List.getElem_idxOf hlt).symm.trans hget)
  exact Function.update_of_ne hne b σ

/-- A formula that does not read a next value keeps its own value when that one changes. -/
theorem Yields.update {i : Nat} {x text : String} (hx : m.vars[i]? = some x)
    (hread : ∀ f k g, Formula.parse text = .ok f → m.Expands k f g → g.readsNext x = false)
    {σ : Nat → Bool} {v : Bool} (b : Bool) (h : m.Yields text σ v) :
    m.Yields text (Function.update σ (nextVar i) b) v := by
  obtain ⟨f, k, g, hf, hg, hv⟩ := h
  refine ⟨f, k, g, hf, hg, ?_⟩
  rw [currentValue_update, ← hv]
  refine Formula.eval_congr (fun _ _ => rfl) fun y hy => nextValue_update hx ?_ σ b
  rintro rfl
  simp [hread f k g hf hg] at hy

theorem Allows.update {i : Nat} {x : String} (hx : m.vars[i]? = some x) (hfree : m.Free x)
    {σ : Nat → Bool} (b : Bool) (h : m.Allows σ) : m.Allows (Function.update σ (nextVar i) b) := by
  refine ⟨fun j y text hy hlookup => ?_, fun text hmem => ?_⟩
  · have hne : nextVar j ≠ nextVar i := by
      intro heq
      obtain rfl : j = i := by
        unfold nextVar at heq
        omega
      obtain rfl : x = y := Option.some.inj (hx.symm.trans hy)
      rw [hfree.unassigned] at hlookup
      cases hlookup
    rw [Function.update_of_ne hne]
    have hread := hfree.unread.next y (List.mem_of_getElem? hy) text hlookup
    exact (h.next j y text hy hlookup).update hx hread b
  · exact (h.trans text hmem).update hx (hfree.unread.trans text hmem) b

theorem allows_update_iff {i : Nat} {x : String} (hx : m.vars[i]? = some x) (hfree : m.Free x)
    (σ : Nat → Bool) (b : Bool) : m.Allows (Function.update σ (nextVar i) b) ↔ m.Allows σ := by
  constructor
  · intro h
    have hback := h.update hx hfree (σ (nextVar i))
    rwa [Function.update_idem, Function.update_eq_self] at hback
  · exact Allows.update hx hfree b

theorem yields_init_iff {s : Scope} {init : Diagram n} (h : m.Resolves s) (hn : m.varnum ≤ n)
    (hinit : m.initialSet n s = .ok init) (σ : Nat → Bool) :
    init.eval σ = true ↔ m.init = "" ∨ m.Yields m.init σ true := by
  rcases initialSet_eq_ok.mp hinit with ⟨hempty, rfl⟩ | ⟨hne, f, hf, -, hd⟩
  · simp [hempty]
  · rw [h.yields_iff hn hf hd σ true, or_iff_right hne]

/-- The relation of a model has the states and the transitions that its formulas say. -/
theorem meaning_of_build (hn : m.varnum ≤ n) {method : Method} {r : Relation n} {s : Scope}
    (h : m.build n method = .ok (r, s)) :
    r.numVars = m.vars.length ∧
      (∀ σ, r.init.eval σ = true ↔ m.init = "" ∨ m.Yields m.init σ true) ∧
      ∀ σ, r.Holds σ ↔ m.Allows σ := by
  obtain ⟨hs, init, cs, hinit, hcs, hmake⟩ := build_eq_ok.mp h
  obtain ⟨hvars, rfl, -⟩ := Relation.make_eq_ok hmake
  refine ⟨by simpa using hvars, yields_init_iff (resolves hs) hn hinit, fun σ => ?_⟩
  exact (Relation.holds_iff hmake σ).trans (allows_iff (resolves hs) hn hcs σ)

/-- A formula that expands has the value of its expansion. -/
theorem yields_iff_of_expands {s : Scope} (h : m.Resolves s) {text : String} {f g : Formula} {k : Nat}
    (hf : Formula.parse text = .ok f) (hg : m.Expands k f g) (σ : Nat → Bool) (v : Bool) :
    m.Yields text σ v ↔ g.eval (m.currentValue σ) (m.nextValue σ) = v := by
  constructor
  · rintro ⟨f', k', g', hf', hg', hv⟩
    obtain rfl : f = f' := Except.ok.inj (hf.symm.trans hf')
    rwa [hg.unique h hg']
  · intro hv
    exact ⟨f, k, g, hf, hg, hv⟩

/-- What can be read and expanded has one value. -/
theorem existsUnique_yields {s : Scope} (h : m.Resolves s) {text : String}
    (htext : m.Expandable text) (σ : Nat → Bool) : ∃! v, m.Yields text σ v := by
  obtain ⟨f, k, g, hf, hg⟩ := htext
  simp only [yields_iff_of_expands h hf hg]
  exact existsUnique_eq'

/-- With enough diagram variables, and in whatever order the abbreviations are taken up, a model has a
relation exactly when its names are different and its formulas can be read and expanded. The initial
states are those of the formula `init`; the parts hold together exactly at the transitions that the
assignments and constraints allow, whose formulas each have one value; a variable that none of them
speaks of takes any next value; and variable `i` has the diagram variables `2 * i` and `2 * i + 1`. -/
theorem build_exact {defines : List (String × String)} (hperm : defines.Perm m.defines)
    (hn : m.varnum ≤ n) {method : Method} (hmethod : ∀ code, method ≠ .other code) :
    ((∃ b : Relation n × Scope, (m.withDefines defines).build n method = .ok b) ↔
        m.Buildable) ∧
      ∀ (r : Relation n) (s : Scope),
        (m.withDefines defines).build n method = .ok (r, s) →
          r.numVars = m.vars.length ∧
          (∀ σ, r.init.eval σ = true ↔ m.init = "" ∨ m.Yields m.init σ true) ∧
          (∀ σ, r.Holds σ ↔ m.Allows σ) ∧
          (m.Transitions fun text => ∀ σ, ∃! v, m.Yields text σ v) ∧
          (∀ (i : Nat) x, m.vars[i]? = some x → m.Free x → ∀ σ b,
            r.Holds (Function.update σ (nextVar i) b) ↔ r.Holds σ) ∧
          ∀ (i : Nat) x, m.vars[i]? = some x → s.positions x = some (2 * (i : Int), 2 * (i : Int) + 1) := by
  have hn' : (m.withDefines defines).varnum ≤ n := hn
  have hbuildable := (exists_build_iff hn' hmethod).trans (buildable_perm hperm)
  refine ⟨hbuildable, fun r s h => ?_⟩
  have hm : m.Buildable := hbuildable.mp ⟨_, h⟩
  obtain ⟨hvars, hinit, hallows⟩ := meaning_of_build hn' h
  have hholds : ∀ σ, r.Holds σ ↔ m.Allows σ := fun σ => (hallows σ).trans (allows_perm hperm)
  have hone : ∀ {text}, m.Expandable text → ∀ σ, ∃! v, m.Yields text σ v := by
    intro text htext σ
    obtain ⟨s', hs'⟩ := exists_scope_iff.mpr ⟨hm.names, hm.defines⟩
    exact existsUnique_yields (resolves hs') htext σ
  refine ⟨hvars, fun σ => ?_, hholds, ?_, ?_, ?_⟩
  · rw [hinit, yields_perm hperm]
    rfl
  · exact ⟨fun x hx text hlookup => hone (hm.transitions.next x hx text hlookup),
      fun text hmem => hone (hm.transitions.trans text hmem)⟩
  · intro i x hx hfree σ b
    rw [hholds, hholds, allows_update_iff hx hfree]
  · intro i x hx
    rw [Scope.positions, lookup_variable (build_eq_ok.mp h).1 hx]
    simp [currentVar, nextVar]

/-- A variable that is inverted, one that is free, and an abbreviation inside another. -/
def blinker : Model where
  vars := ["x", "y"]
  init := "d"
  next := [("x", "e")]
  trans := ["d"]
  defines := [("d", "!e"), ("e", "!x")]
  ltlspec := "x"

theorem transitions_blinker {P : String → Prop} (he : P "e") (hd : P "d") :
    blinker.Transitions P := by
  refine ⟨fun x hx text hlookup => ?_, fun text hmem => ?_⟩
  · have hx : x = "x" ∨ x = "y" := by simpa [blinker] using hx
    rcases hx with rfl | rfl
    · obtain rfl : "e" = text := by simpa [blinker] using hlookup
      exact he
    · cases hlookup
  · obtain rfl : text = "d" := by simpa [blinker] using hmem
    exact hd

theorem defines_blinker : Formula.parse "!e" = .ok (.not (.ident "e")) ∧
    Formula.parse "!x" = .ok (.not (.ident "x")) :=
  ⟨Formula.parse_render (f := .not (.ident "e")) (by decide +kernel),
    Formula.parse_render (f := .not (.ident "x")) (by decide +kernel)⟩

theorem expands_blinker : (∃ f, Formula.parse "e" = .ok f ∧
      blinker.Expands 1 f (.not (.ident "x"))) ∧
    ∃ f, Formula.parse "d" = .ok f ∧ f.hasNext = false ∧
      blinker.Expands 2 f (.not (.not (.ident "x"))) := by
  obtain ⟨hnote, hnotx⟩ := defines_blinker
  have he : blinker.Expands 1 (.ident "e") (.not (.ident "x")) :=
    .defined (by decide) hnotx (.not (.declared (by decide)))
  refine ⟨⟨.ident "e", ?_, he⟩, .ident "d", ?_, rfl, .defined (by decide) hnote (.not he)⟩
  · exact Formula.parse_render (f := .ident "e") (by decide +kernel)
  · exact Formula.parse_render (f := .ident "d") (by decide +kernel)

theorem buildable_blinker : blinker.Buildable := by
  obtain ⟨⟨f, hf, hfe⟩, g, hg, hnext, hgd⟩ := expands_blinker
  refine ⟨by decide, ?_, fun _ => ⟨g, hg, hnext, 2, _, hgd⟩,
    transitions_blinker ⟨f, 1, _, hf, hfe⟩ ⟨g, 2, _, hg, hgd⟩⟩
  simp [blinker, defines_blinker]

/-- With the abbreviations the other way round there is a relation; it has the transitions of the
model and lets the second variable change. -/
theorem build_blinker : ∃ (r : Relation 4) (s : Scope),
    (blinker.withDefines [("e", "!x"), ("d", "!e")]).build 4 .partition = .ok (r, s) ∧
      (∀ σ, r.Holds σ ↔ blinker.Allows σ) ∧
      ∀ σ b, r.Holds (Function.update σ 3 b) ↔ r.Holds σ := by
  obtain ⟨hbuild, hmeaning⟩ := @build_exact blinker 4 [("e", "!x"), ("d", "!e")] (by decide)
    (by decide) .partition nofun
  obtain ⟨⟨r, s⟩, h⟩ := hbuild.mpr buildable_blinker
  obtain ⟨-, -, hholds, -, hfree, -⟩ := hmeaning r s h
  obtain ⟨t, ht⟩ := exists_scope_iff.mpr ⟨buildable_blinker.names, buildable_blinker.defines⟩
  have hunread : ∀ {text : String} {f g : Formula} {k : Nat}, Formula.parse text = .ok f →
      blinker.Expands k f g → g.readsNext "y" = false →
      ∀ f k g, Formula.parse text = .ok f → blinker.Expands k f g → g.readsNext "y" = false := by
    intro text f g k hf hg hread f' k' g' hf' hg'
    obtain rfl : f = f' := Except.ok.inj (hf.symm.trans hf')
    rwa [← hg.unique (resolves ht) hg']
  obtain ⟨⟨f, hf, hfe⟩, g, hg, -, hgd⟩ := expands_blinker
  refine ⟨r, s, h, hholds, hfree 1 "y" rfl ⟨rfl, transitions_blinker ?_ ?_⟩⟩
  · exact hunread hf hfe rfl
  · exact hunread hg hgd rfl

end Model
end SymbolicLtl
