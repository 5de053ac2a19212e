import SymbolicLtl.Model.Basic
import SymbolicLtl.Proofs.Formula.Abbreviations

/-!
What the formulas of a model say. Their abbreviations are expanded until only variables are left, and
an assignment of the diagram variables gives each variable a current and a next value. In a scope that
resolves the names of the model, exactly the formulas with an expansion are compiled, and they are
compiled to the function that the expansion denotes.
-/
namespace SymbolicLtl
namespace Model

/-- The second formula is the first one with all abbreviations expanded, at most `k` of them inside
one another. -/
inductive Expands (m : Model) : Nat → Formula → Formula → Prop
  | const {k : Nat} (v : Bool) : Expands m k (.const v) (.const v)
  | declared {k : Nat} {x : String} (hx : x ∈ m.vars) : Expands m k (.ident x) (.ident x)
  | defined {k : Nat} {x text : String} {f g : Formula} (hx : (x, text) ∈ m.defines)
      (hf : Formula.parse text = .ok f) (hg : Expands m k f g) : Expands m (k + 1) (.ident x) g
  | next {k : Nat} {x : String} (hx : x ∈ m.vars) : Expands m k (.next x) (.next x)
  | not {k : Nat} {a a' : Formula} (ha : Expands m k a a') : Expands m k (.not a) (.not a')
  | binary {k : Nat} {a a' b b' : Formula} (op : Connective) (ha : Expands m k a a')
      (hb : Expands m k b b') : Expands m k (.binary op a b) (.binary op a' b')

def currentValue (m : Model) (σ : Nat → Bool) (x : String) : Bool := σ (currentVar (m.vars.idxOf x))

def nextValue (m : Model) (σ : Nat → Bool) (x : String) : Bool := σ (nextVar (m.vars.idxOf x))

/-- A written formula has a value under an assignment of current and next values. -/
def Yields (m : Model) (text : String) (σ : Nat → Bool) (v : Bool) : Prop :=
  ∃ f k g, Formula.parse text = .ok f ∧ m.Expands k f g ∧
    g.eval (m.currentValue σ) (m.nextValue σ) = v

/-- A scope knows the variables and the abbreviations of a model, and nothing else. -/
structure Resolves (m : Model) (s : Scope) : Prop where
  declared : ∀ x ∈ m.vars, s.lookup x =
    some (.variable (currentVar (m.vars.idxOf x)) (nextVar (m.vars.idxOf x)))
  defined : ∀ x text, (x, text) ∈ m.defines →
    ∃ f, Formula.parse text = .ok f ∧ s.lookup x = some (.define f)
  known : ∀ x b, s.lookup x = some b → x ∈ m.vars ∨ ∃ text, (x, text) ∈ m.defines

variable {m : Model} {s : Scope}

theorem Expands.mono {k k' : Nat} {f g : Formula} (h : m.Expands k f g) (hk : k ≤ k') :
    m.Expands k' f g := by
  induction h generalizing k' with
  | const v => exact .const v
  | declared hx => exact .declared hx
  | defined hx hf _ ih =>
    obtain ⟨j, rfl⟩ : ∃ j, k' = j + 1 := ⟨k' - 1, by omega⟩
    exact .defined hx hf (ih (by omega))
  | next hx => exact .next hx
  | not _ ih => exact .not (ih hk)
  | binary op _ _ iha ihb => exact .binary op (iha hk) (ihb hk)

theorem Resolves.lookup_of_define (h : m.Resolves s) {x text : String} {f : Formula}
    (hx : (x, text) ∈ m.defines) (hf : Formula.parse text = .ok f) :
    s.lookup x = some (.define f) := by
  obtain ⟨f', hf', hlookup⟩ := h.defined x text hx
  obtain rfl : f' = f := Except.ok.inj (hf'.symm.trans hf)
  exact hlookup

theorem nextVar_lt {n : Nat} (hn : m.varnum ≤ n) {x : String} (hx : x ∈ m.vars) :
    nextVar (m.vars.idxOf x) < n := by
  have hlt := List.idxOf_lt_length_of_mem hx
  unfold varnum at hn
  unfold nextVar
  omega

theorem currentVar_lt_of_mem {n : Nat} (hn : m.varnum ≤ n) {x : String} (hx : x ∈ m.vars) :
    currentVar (m.vars.idxOf x) < n := by
  have hlt := m.nextVar_lt hn hx
  unfold nextVar at hlt
  unfold currentVar
  omega

theorem Resolves.of_variable (h : m.Resolves s) {x : String} {current next : Int}
    (hx : s.lookup x = some (.variable current next)) : x ∈ m.vars ∧
      current = currentVar (m.vars.idxOf x) ∧ next = nextVar (m.vars.idxOf x) := by
  rcases h.known x _ hx with hmem | ⟨text, hmem⟩
  · have hlookup := h.declared x hmem
    rw [hx] at hlookup
    cases hlookup
    exact ⟨hmem, rfl, rfl⟩
  · obtain ⟨f, -, hlookup⟩ := h.defined x text hmem
    rw [hx] at hlookup
    cases hlookup

theorem Resolves.of_define (h : m.Resolves s) {x : String} {f : Formula}
    (hx : s.lookup x = some (.define f)) :
    ∃ text, (x, text) ∈ m.defines ∧ Formula.parse text = .ok f := by
  rcases h.known x _ hx with hmem | ⟨text, hmem⟩
  · rw [h.declared x hmem] at hx
    cases hx
  · obtain ⟨f', hf', hlookup⟩ := h.defined x text hmem
    rw [hx] at hlookup
    cases hlookup
    exact ⟨text, hmem, hf'⟩

theorem Resolves.inRange {n : Nat} (h : m.Resolves s) (hn : m.varnum ≤ n) : s.InRange n := by
  intro x current next hx
  obtain ⟨hmem, rfl, rfl⟩ := h.of_variable hx
  have hcurrent := m.currentVar_lt_of_mem hn hmem
  have hnext := m.nextVar_lt hn hmem
  omega

/-- The abbreviations of a model are those of its scope. -/
theorem Expands.inScope (h : m.Resolves s) {k : Nat} {f g : Formula} (hg : m.Expands k f g) :
    s.Expands f g := by
  induction hg with
  | const v => exact .const v
  | declared hx => exact .declared (h.declared _ hx)
  | defined hx hf _ ih => exact .defined (h.lookup_of_define hx hf) ih
  | next hx => exact .next (h.declared _ hx)
  | not _ ih => exact .not ih
  | binary op _ _ iha ihb => exact .binary op iha ihb

theorem Resolves.exists_expands (h : m.Resolves s) {f g : Formula} (hg : s.Expands f g) :
    ∃ k, m.Expands k f g := by
  induction hg with
  | const v => exact ⟨0, .const v⟩
  | declared hx => exact ⟨0, .declared (h.of_variable hx).1⟩
  | defined hx _ ih =>
    obtain ⟨text, hmem, hparse⟩ := h.of_define hx
    obtain ⟨k, hk⟩ := ih
    exact ⟨k + 1, .defined hmem hparse hk⟩
  | next hx => exact ⟨0, .next (h.of_variable hx).1⟩
  | not _ ih =>
    obtain ⟨k, hk⟩ := ih
    exact ⟨k, .not hk⟩
  | binary op _ _ iha ihb =>
    obtain ⟨i, hi⟩ := iha
    obtain ⟨j, hj⟩ := ihb
    exact ⟨max i j, .binary op (hi.mono (by omega)) (hj.mono (by omega))⟩

/-- An expansion has no abbreviations left, so there is only one. -/
theorem Expands.unique (h : m.Resolves s) {k k' : Nat} {f g g' : Formula} (hg : m.Expands k f g)
    (hg' : m.Expands k' f g') : g = g' :=
  (hg'.inScope h).unique (hg.inScope h)

/-- An expansion has the same value in the scope and in the model. -/
theorem Resolves.eval_expansion (h : m.Resolves s) {f g : Formula} (hg : s.Expands f g)
    (σ : Nat → Bool) : g.eval (s.currentValue σ) (s.nextValue σ) =
      g.eval (m.currentValue σ) (m.nextValue σ) := by
  refine Formula.eval_congr (fun x hx => ?_) fun x hx => ?_
  · obtain ⟨-, current, next, hlookup⟩ := hg.reaches_of_readsCurrent hx
    rw [Scope.currentValue_of_variable hlookup, (h.of_variable hlookup).2.1]
    rfl
  · obtain ⟨-, current, next, hlookup⟩ := hg.reachesNext_of_readsNext hx
    rw [Scope.nextValue_of_variable hlookup, (h.of_variable hlookup).2.2]
    rfl

/-- What is compiled has an expansion, and denotes what the expansion says. -/
theorem Resolves.expands_of_compile {n : Nat} (h : m.Resolves s) (hn : m.varnum ≤ n) {f : Formula}
    {d : Diagram n} (hd : s.compile f = .ok d) : ∃ k g, m.Expands k f g ∧
      ∀ σ, d.eval σ = g.eval (m.currentValue σ) (m.nextValue σ) := by
  obtain ⟨g, hg, heval⟩ := (h.inRange hn).expands_of_compile hd
  obtain ⟨k, hk⟩ := h.exists_expands hg
  exact ⟨k, g, hk, fun σ => (heval σ).trans (h.eval_expansion hg σ)⟩

def Expandable (m : Model) (text : String) : Prop :=
  ∃ f k g, Formula.parse text = .ok f ∧ m.Expands k f g

theorem Resolves.exists_compile_iff {n : Nat} (h : m.Resolves s) (hn : m.varnum ≤ n)
    {f : Formula} : (∃ d : Diagram n, s.compile f = .ok d) ↔ ∃ k g, m.Expands k f g := by
  constructor
  · rintro ⟨d, hd⟩
    obtain ⟨k, g, hg, -⟩ := h.expands_of_compile hn hd
    exact ⟨k, g, hg⟩
  · rintro ⟨k, g, hg⟩
    exact (h.inRange hn).exists_compile_iff.mpr (hg.inScope h).meaningful

/-- The function of a formula takes the values of the formula. -/
theorem Resolves.yields_iff {n : Nat} (h : m.Resolves s) (hn : m.varnum ≤ n) {text : String}
    {f : Formula} (hf : Formula.parse text = .ok f) {d : Diagram n} (hd : s.compile f = .ok d)
    (σ : Nat → Bool) (v : Bool) : m.Yields text σ v ↔ d.eval σ = v := by
  obtain ⟨k, g, hg, heval⟩ := h.expands_of_compile hn hd
  constructor
  · rintro ⟨f', k', g', hf', hg', hv⟩
    obtain rfl : f = f' := Except.ok.inj (hf.symm.trans hf')
    obtain rfl : g = g' := hg.unique h hg'
    exact (heval σ).trans hv
  · intro hv
    exact ⟨f, k, g, hf, hg, (heval σ).symm.trans hv⟩

theorem compileText_eq_ok {n : Nat} {text : String} {d : Diagram n} :
    s.compileText text = .ok d ↔ ∃ f, Formula.parse text = .ok f ∧ s.compile f = .ok d := by
  unfold Scope.compileText
  rw [Attempt.bind_eq_ok]
  refine exists_congr fun f => and_congr ?_ ?_
  · exact (Attempt.mapError_eq_ok_iff _).trans (Attempt.mapError_eq_ok_iff _)
  · exact Attempt.mapError_eq_ok_iff _

theorem Resolves.exists_compileText_iff {n : Nat} (h : m.Resolves s) (hn : m.varnum ≤ n)
    {text : String} : (∃ d : Diagram n, s.compileText text = .ok d) ↔ m.Expandable text := by
  simp only [compileText_eq_ok]
  constructor
  · rintro ⟨d, f, hf, hd⟩
    obtain ⟨k, g, hg⟩ := (h.exists_compile_iff hn).mp ⟨d, hd⟩
    exact ⟨f, k, g, hf, hg⟩
  · rintro ⟨f, k, g, hf, hg⟩
    obtain ⟨d, hd⟩ := (h.exists_compile_iff hn).mpr ⟨k, g, hg⟩
    exact ⟨d, f, hf, hd⟩

theorem Resolves.neverMisused_compile {n : Nat} (h : m.Resolves s) (hn : m.varnum ≤ n) (f : Formula) :
    Attempt.NeverMisused (s.compile f : Attempt ScopeError (Diagram n)) := by
  intro e he
  cases (h.inRange hn).failsAs_compile f _ he

theorem Resolves.neverMisused_compileText {n : Nat} (h : m.Resolves s) (hn : m.varnum ≤ n)
    (text : String) :
    Attempt.NeverMisused (s.compileText text : Attempt FormulaError (Diagram n)) := by
  unfold Scope.compileText
  apply Attempt.NeverMisused.bind (.ofRefusal _)
  intro f _
  exact (h.neverMisused_compile hn f).restate _

end Model
end SymbolicLtl
