import Mathlib.Logic.Relation
import SymbolicLtl.Formula.Sketch
import SymbolicLtl.Proofs.Attempt
import SymbolicLtl.Proofs.Diagram.Dependence

/-!
Formulas in a scope whose abbreviations may stand for one another in any way. A formula is compiled if and
only if all names that it reads, itself or through abbreviations, are known, and no abbreviation among
them stands for itself; then it is compiled to the function of its expansion. Otherwise the refusal names
what is at fault.
-/
namespace SymbolicLtl

namespace Formula

def readsCurrent (x : String) : Formula → Bool
  | .const _ | .next _ => false
  | .ident y => y == x
  | .not a => a.readsCurrent x
  | .binary _ a b => a.readsCurrent x || b.readsCurrent x

def readsNext (x : String) : Formula → Bool
  | .const _ | .ident _ => false
  | .next y => y == x
  | .not a => a.readsNext x
  | .binary _ a b => a.readsNext x || b.readsNext x

theorem eval_congr {current current' next next' : String → Bool} {f : Formula}
    (hcurrent : ∀ x, f.readsCurrent x = true → current x = current' x)
    (hnext : ∀ x, f.readsNext x = true → next x = next' x) :
    f.eval current next = f.eval current' next' := by
  induction f with
  | const v => rfl
  | ident x => exact hcurrent x (by simp [readsCurrent])
  | next x => exact hnext x (by simp [readsNext])
  | not a ih => rw [eval, eval, ih hcurrent hnext]
  | binary op a b iha ihb =>
    rw [eval, eval, iha (fun x hx => hcurrent x (by simp [readsCurrent, hx]))
        fun x hx => hnext x (by simp [readsNext, hx]),
      ihb (fun x hx => hcurrent x (by simp [readsCurrent, hx]))
        fun x hx => hnext x (by simp [readsNext, hx])]

end Formula

namespace Scope

variable {n : Nat} {s : Scope} {f : Formula} {x y : String}

/-- The first name stands for a formula that reads the second. -/
def Depends (s : Scope) (x y : String) : Prop :=
  ∃ f, s.lookup x = some (.define f) ∧ f.readsCurrent y = true

/-- A formula reads a name, itself or through abbreviations. -/
def Reaches (s : Scope) (f : Formula) (y : String) : Prop :=
  ∃ x, f.readsCurrent x = true ∧ Relation.ReflTransGen s.Depends x y

def ReachesNext (s : Scope) (f : Formula) (x : String) : Prop :=
  f.readsNext x = true ∨
    ∃ y g, s.Reaches f y ∧ s.lookup y = some (.define g) ∧ g.readsNext x = true

theorem not_depends_of_variable {current next : Int} (hx : s.lookup x = some (.variable current next)) :
    ¬ s.Depends x y := by
  rintro ⟨f, hf, -⟩
  rw [hx] at hf
  cases hf

@[simp] theorem not_reaches_const (v : Bool) : ¬ s.Reaches (.const v) y := by
  rintro ⟨x, hx, -⟩
  cases hx

@[simp] theorem not_reaches_next : ¬ s.Reaches (.next x) y := by
  rintro ⟨z, hz, -⟩
  cases hz

theorem reaches_ident : s.Reaches (.ident x) y ↔ Relation.ReflTransGen s.Depends x y := by
  simp [Reaches, Formula.readsCurrent]

@[simp] theorem reaches_not : s.Reaches (.not f) y ↔ s.Reaches f y := Iff.rfl

@[simp] theorem reaches_binary {op : Connective} {a b : Formula} :
    s.Reaches (.binary op a b) y ↔ s.Reaches a y ∨ s.Reaches b y := by
  simp only [Reaches, Formula.readsCurrent, Bool.or_eq_true, or_and_right, exists_or]

theorem reaches_variable {current next : Int} (hx : s.lookup x = some (.variable current next)) :
    s.Reaches (.ident x) y ↔ y = x := by
  rw [reaches_ident, Relation.ReflTransGen.cases_head_iff]
  simp only [not_depends_of_variable hx, false_and, exists_false, or_false, eq_comm]

theorem reaches_define (hx : s.lookup x = some (.define f)) :
    s.Reaches (.ident x) y ↔ y = x ∨ s.Reaches f y := by
  have hdepends : ∀ z, s.Depends x z ↔ f.readsCurrent z = true := by
    intro z
    simp [Depends, hx]
  rw [reaches_ident, Relation.ReflTransGen.cases_head_iff]
  simp only [hdepends, Reaches, eq_comm]

@[simp] theorem not_reachesNext_const (v : Bool) : ¬ s.ReachesNext (.const v) y := by
  simp [ReachesNext, Formula.readsNext]

@[simp] theorem reachesNext_next : s.ReachesNext (.next x) y ↔ x = y := by
  simp [ReachesNext, Formula.readsNext]

@[simp] theorem reachesNext_not : s.ReachesNext (.not f) y ↔ s.ReachesNext f y := Iff.rfl

@[simp] theorem reachesNext_binary {op : Connective} {a b : Formula} :
    s.ReachesNext (.binary op a b) y ↔ s.ReachesNext a y ∨ s.ReachesNext b y := by
  simp only [ReachesNext, Formula.readsNext, Bool.or_eq_true, reaches_binary, or_and_right, exists_or]
  exact or_or_or_comm

theorem reachesNext_variable {current next : Int} (hx : s.lookup x = some (.variable current next)) :
    ¬ s.ReachesNext (.ident x) y := by
  simp [ReachesNext, Formula.readsNext, reaches_variable hx, hx]

theorem reachesNext_define (hx : s.lookup x = some (.define f)) :
    s.ReachesNext (.ident x) y ↔ s.ReachesNext f y := by
  simp [ReachesNext, Formula.readsNext, reaches_define hx, or_and_right, exists_or, hx]

/-- The second formula is the first one with all abbreviations expanded. -/
inductive Expands (s : Scope) : Formula → Formula → Prop
  | const (v : Bool) : Expands s (.const v) (.const v)
  | declared {x : String} {current next : Int} (hx : s.lookup x = some (.variable current next)) :
      Expands s (.ident x) (.ident x)
  | defined {x : String} {f g : Formula} (hx : s.lookup x = some (.define f)) (hg : Expands s f g) :
      Expands s (.ident x) g
  | next {x : String} {current next : Int} (hx : s.lookup x = some (.variable current next)) :
      Expands s (.next x) (.next x)
  | not {a a' : Formula} (ha : Expands s a a') : Expands s (.not a) (.not a')
  | binary {a a' b b' : Formula} (op : Connective) (ha : Expands s a a') (hb : Expands s b b') :
      Expands s (.binary op a b) (.binary op a' b')

/-- All that a formula reaches has a meaning, and none of it stands for itself. -/
structure Meaningful (s : Scope) (f : Formula) : Prop where
  declared : ∀ x, s.Reaches f x → ∃ b, s.lookup x = some b
  next : ∀ x, s.ReachesNext f x → ∃ current next, s.lookup x = some (.variable current next)
  acyclic : ∀ x, s.Reaches f x → ¬ Relation.TransGen s.Depends x x

def currentValue (s : Scope) (σ : Nat → Bool) (x : String) : Bool :=
  ((s.positions x).map fun p => σ p.1.toNat).getD false

def nextValue (s : Scope) (σ : Nat → Bool) (x : String) : Bool :=
  ((s.positions x).map fun p => σ p.2.toNat).getD false

/-- There are diagram variables for all values. -/
def InRange (s : Scope) (n : Nat) : Prop :=
  ∀ x current next, s.lookup x = some (.variable current next) →
    (0 ≤ current ∧ current < n) ∧ 0 ≤ next ∧ next < n

theorem Expands.unique {g g' : Formula} (hg : s.Expands f g) (hg' : s.Expands f g') : g' = g := by
  induction hg generalizing g' with
  | const v =>
    cases hg'
    rfl
  | declared hx =>
    cases hg' with
    | declared _ => rfl
    | defined hx' _ =>
      rw [hx] at hx'
      cases hx'
  | defined hx _ ih =>
    cases hg' with
    | declared hx' =>
      rw [hx] at hx'
      cases hx'
    | defined hx' hg' =>
      rw [hx] at hx'
      cases hx'
      exact ih hg'
  | next _ =>
    cases hg'
    rfl
  | not _ ih =>
    cases hg' with
    | not ha => rw [ih ha]
  | binary op _ _ iha ihb =>
    cases hg' with
    | binary _ ha hb => rw [iha ha, ihb hb]

/-- What has an expansion reaches names with a meaning only. A cycle through an abbreviation would be
reached from its own formula already. -/
theorem Expands.meaningful {g : Formula} (h : s.Expands f g) : s.Meaningful f := by
  induction h with
  | const v => exact ⟨by simp, by simp, by simp⟩
  | @declared x current next hx =>
    refine ⟨fun y hy => ?_, fun y hy => absurd hy (reachesNext_variable hx), fun y hy hcycle => ?_⟩
    · obtain rfl := (reaches_variable hx).mp hy
      exact ⟨_, hx⟩
    · obtain rfl := (reaches_variable hx).mp hy
      obtain ⟨z, hz, -⟩ := Relation.TransGen.head'_iff.mp hcycle
      exact not_depends_of_variable hx hz
  | @defined x f g hx _ ih =>
    refine ⟨fun y hy => ?_, fun y hy => ih.next y ((reachesNext_define hx).mp hy), fun y hy hcycle => ?_⟩
    · rcases (reaches_define hx).mp hy with rfl | hy
      · exact ⟨_, hx⟩
      · exact ih.declared y hy
    · rcases (reaches_define hx).mp hy with rfl | hy
      · obtain ⟨z, ⟨f', hf', hz⟩, hback⟩ := Relation.TransGen.head'_iff.mp hcycle
        obtain rfl : f = f' := by simpa [hx] using hf'
        exact ih.acyclic y ⟨z, hz, hback⟩ hcycle
      · exact ih.acyclic y hy hcycle
  | @next x current next hx =>
    refine ⟨by simp, fun y hy => ?_, by simp⟩
    obtain rfl := reachesNext_next.mp hy
    exact ⟨_, _, hx⟩
  | not _ ih => exact ⟨ih.declared, ih.next, ih.acyclic⟩
  | binary op _ _ iha ihb =>
    refine ⟨fun y hy => ?_, fun y hy => ?_, fun y hy => ?_⟩
    · exact (reaches_binary.mp hy).elim (iha.declared y) (ihb.declared y)
    · exact (reachesNext_binary.mp hy).elim (iha.next y) (ihb.next y)
    · exact (reaches_binary.mp hy).elim (iha.acyclic y) (ihb.acyclic y)

theorem Expands.reaches_of_readsCurrent {g : Formula} (h : s.Expands f g) (hx : g.readsCurrent x = true) :
    s.Reaches f x ∧ ∃ current next, s.lookup x = some (.variable current next) := by
  induction h with
  | const v => cases hx
  | @declared y current next hy =>
    obtain rfl : y = x := by simpa [Formula.readsCurrent] using hx
    exact ⟨reaches_ident.mpr .refl, current, next, hy⟩
  | defined hy _ ih => exact ⟨(reaches_define hy).mpr (.inr (ih hx).1), (ih hx).2⟩
  | next hy => cases hx
  | not _ ih => exact ih hx
  | binary op _ _ iha ihb =>
    rcases Bool.or_eq_true_iff.mp hx with hx | hx
    · exact ⟨reaches_binary.mpr (.inl (iha hx).1), (iha hx).2⟩
    · exact ⟨reaches_binary.mpr (.inr (ihb hx).1), (ihb hx).2⟩

theorem Expands.reachesNext_of_readsNext {g : Formula} (h : s.Expands f g) (hx : g.readsNext x = true) :
    s.ReachesNext f x ∧ ∃ current next, s.lookup x = some (.variable current next) := by
  induction h with
  | const v => cases hx
  | declared hy => cases hx
  | defined hy _ ih => exact ⟨(reachesNext_define hy).mpr (ih hx).1, (ih hx).2⟩
  | @next y current next hy =>
    obtain rfl : y = x := by simpa [Formula.readsNext] using hx
    exact ⟨reachesNext_next.mpr rfl, current, next, hy⟩
  | not _ ih => exact ih hx
  | binary op _ _ iha ihb =>
    rcases Bool.or_eq_true_iff.mp hx with hx | hx
    · exact ⟨reachesNext_binary.mpr (.inl (iha hx).1), (iha hx).2⟩
    · exact ⟨reachesNext_binary.mpr (.inr (ihb hx).1), (ihb hx).2⟩

/-- Compilation with the names that are being expanded as an argument that nothing changes. -/
def compileIn {n : Nat} (s : Scope) (expanding : List String) :
    Formula → Attempt ScopeError (Diagram n)
  | .const v => return .const v
  | .ident x =>
    match _h : s.lookup x with
    | some (.variable current _) => do
      return .var (← Attempt.ofMisuse (Diagram.checkVar n current))
    | some (.define f) =>
      if _hx : expanding.contains x then Attempt.refuse (.recursiveDefine x)
      else s.compileIn (x :: expanding) f
    | none => Attempt.refuse (.unknown x)
  | .next x =>
    match s.lookup x with
    | some (.variable _ next) => do
      return .var (← Attempt.ofMisuse (Diagram.checkVar n next))
    | _ => Attempt.refuse (.unknownNext x)
  | .not a => return (← s.compileIn expanding a).not
  | .binary op a b => do
    let l ← s.compileIn expanding a
    let r ← s.compileIn expanding b
    return .combine op.eval l r
termination_by f => (s.unexpanded expanding, f)
decreasing_by
  · exact Prod.Lex.left _ _ (unexpanded_cons_lt _h (by simpa using _hx))
  all_goals exact Prod.Lex.right _ (by simp +arith)

/-- Since the names are restored on every way out, each formula is compiled with those on the way to
it. -/
theorem compileFrom_eq (s : Scope) (expanding : List String) (f : Formula) :
    (s.compileFrom expanding f).val.1 =
      (s.compileIn expanding f : Attempt ScopeError (Diagram n)) := by
  fun_induction compileIn (n := n) s expanding f with
  | case1 expanding v => rw [compileFrom]
  | case2 expanding x current next hx =>
    rw [compileFrom]
    split <;> simp_all
  | case3 expanding x f hx hagain =>
    rw [compileFrom]
    split <;> simp_all
  | case4 expanding x f hx hnew ih =>
    rw [compileFrom]
    split <;> simp_all
  | case5 expanding x hx =>
    rw [compileFrom]
    split <;> simp_all
  | case6 expanding x current next hx =>
    rw [compileFrom]
    split <;> simp_all
  | case7 expanding x hx =>
    rw [compileFrom]
    split <;> simp_all
  | case8 expanding a ih =>
    rw [compileFrom, ← ih]
  | case9 expanding op a b iha ihb =>
    rw [compileFrom, ← iha, ← ihb]
    generalize s.compileFrom expanding a = q
    obtain ⟨⟨r, after⟩, h⟩ := q
    cases h
    cases r <;> rfl

theorem compile_eq (s : Scope) (f : Formula) :
    (s.compile f : Attempt ScopeError (Diagram n)) = s.compileIn [] f := s.compileFrom_eq [] f

theorem exists_checkVar {i : Int} (hi : 0 ≤ i ∧ i < n) :
    ∃ v : Fin n, Diagram.checkVar n i = .ok v ∧ v.val = i.toNat := by
  rw [Diagram.checkVar, dif_pos hi]
  exact ⟨_, rfl, rfl⟩

theorem currentValue_of_variable {current next : Int}
    (hx : s.lookup x = some (.variable current next)) (σ : Nat → Bool) :
    s.currentValue σ x = σ current.toNat := by
  simp [currentValue, positions, hx]

theorem nextValue_of_variable {current next : Int}
    (hx : s.lookup x = some (.variable current next)) (σ : Nat → Bool) :
    s.nextValue σ x = σ next.toNat := by
  simp [nextValue, positions, hx]

/-- What is compiled has an expansion, and is the function of the expansion. -/
theorem InRange.expands_of_compileIn (hs : s.InRange n) {expanding : List String} {d : Diagram n}
    (hd : s.compileIn expanding f = .ok d) :
    ∃ g, s.Expands f g ∧ ∀ σ, d.eval σ = g.eval (s.currentValue σ) (s.nextValue σ) := by
  fun_induction Scope.compileIn s expanding f generalizing d with
  | case1 expanding v =>
    cases hd
    exact ⟨_, .const v, fun σ => Diagram.eval_const v σ⟩
  | case2 expanding x current next hx =>
    obtain ⟨v, hv, hval⟩ := exists_checkVar (hs x current next hx).1
    rw [hv, Attempt.ofMisuse_ok, Attempt.ok_bind] at hd
    cases hd
    refine ⟨_, .declared hx, fun σ => ?_⟩
    rw [Formula.eval, currentValue_of_variable hx, Diagram.eval_var, hval]
  | case3 expanding x f hx hagain => cases hd
  | case4 expanding x f hx hnew ih =>
    obtain ⟨g, hg, heval⟩ := ih hd
    exact ⟨g, .defined hx hg, heval⟩
  | case5 expanding x hx => cases hd
  | case6 expanding x current next hx =>
    obtain ⟨v, hv, hval⟩ := exists_checkVar (hs x current next hx).2
    rw [hv, Attempt.ofMisuse_ok, Attempt.ok_bind] at hd
    cases hd
    refine ⟨_, .next hx, fun σ => ?_⟩
    rw [Formula.eval, nextValue_of_variable hx, Diagram.eval_var, hval]
  | case7 expanding x hx => cases hd
  | case8 expanding a ih =>
    obtain ⟨d', hd', heq⟩ := Attempt.bind_eq_ok.mp hd
    cases heq
    obtain ⟨g, hg, heval⟩ := ih hd'
    refine ⟨_, .not hg, fun σ => ?_⟩
    rw [Diagram.eval_not, heval, Formula.eval]
  | case9 expanding op a b iha ihb =>
    obtain ⟨da, hda, hd⟩ := Attempt.bind_eq_ok.mp hd
    obtain ⟨db, hdb, heq⟩ := Attempt.bind_eq_ok.mp hd
    cases heq
    obtain ⟨ga, hga, hevala⟩ := iha hda
    obtain ⟨gb, hgb, hevalb⟩ := ihb hdb
    refine ⟨_, .binary op hga hgb, fun σ => ?_⟩
    rw [Diagram.eval_combine, hevala, hevalb, Formula.eval]

/-- What a refusal names is reached by the formula, and at fault. -/
inductive Blames (s : Scope) (f : Formula) : Failure ScopeError → Prop
  | recursiveDefine {x : String} (hx : s.Reaches f x) (hcycle : Relation.TransGen s.Depends x x) :
      Blames s f (.refused (.recursiveDefine x))
  | unknown {x : String} (hx : s.Reaches f x) (hnone : s.lookup x = none) :
      Blames s f (.refused (.unknown x))
  | unknownNext {x : String} (hx : s.ReachesNext f x)
      (hno : ∀ current next, s.lookup x ≠ some (.variable current next)) :
      Blames s f (.refused (.unknownNext x))

theorem Blames.mono {g : Formula} {e : Failure ScopeError} (h : s.Blames f e)
    (hreaches : ∀ x, s.Reaches f x → s.Reaches g x)
    (hnext : ∀ x, s.ReachesNext f x → s.ReachesNext g x) : s.Blames g e := by
  cases h with
  | recursiveDefine hx hcycle => exact .recursiveDefine (hreaches _ hx) hcycle
  | unknown hx hnone => exact .unknown (hreaches _ hx) hnone
  | unknownNext hx hno => exact .unknownNext (hnext _ hx) hno

theorem Blames.not_meaningful {e : Failure ScopeError} (h : s.Blames f e) : ¬ s.Meaningful f := by
  intro hf
  cases h with
  | recursiveDefine hx hcycle => exact hf.acyclic _ hx hcycle
  | unknown hx hnone =>
    obtain ⟨b, hb⟩ := hf.declared _ hx
    rw [hnone] at hb
    cases hb
  | unknownNext hx hno =>
    obtain ⟨current, next, hvar⟩ := hf.next _ hx
    exact hno current next hvar

/-- The abbreviations that are being expanded are those on the way to the formula: each of them depends
on all that the formula reads. So one that is met again depends on itself. -/
theorem InRange.failsAs_compileIn (hs : s.InRange n) {expanding : List String}
    (hway : ∀ x ∈ expanding, ∀ y, f.readsCurrent y = true → Relation.TransGen s.Depends x y) :
    Attempt.FailsAs (s.Blames f) (s.compileIn expanding f : Attempt ScopeError (Diagram n)) := by
  fun_induction Scope.compileIn s expanding f with
  | case1 expanding v => exact .ok _
  | case2 expanding x current next hx =>
    obtain ⟨v, hv, -⟩ := exists_checkVar (hs x current next hx).1
    rw [hv]
    exact .ok _
  | case3 expanding x f hx hagain =>
    refine .error (.recursiveDefine ((reaches_define hx).mpr (.inl rfl)) ?_)
    exact hway x (by simpa using hagain) x (by simp [Formula.readsCurrent])
  | case4 expanding x f hx hnew ih =>
    have hbody : Attempt.FailsAs (s.Blames f)
        (s.compileIn (x :: expanding) f : Attempt ScopeError (Diagram n)) := by
      refine ih fun z hz y hy => ?_
      have hstep : s.Depends x y := ⟨f, hx, hy⟩
      rcases List.mem_cons.mp hz with rfl | hz
      · exact .single hstep
      · exact (hway z hz x (by simp [Formula.readsCurrent])).tail hstep
    intro e he
    exact (hbody e he).mono (fun y hy => (reaches_define hx).mpr (.inr hy))
      fun y hy => (reachesNext_define hx).mpr hy
  | case5 expanding x hx => exact .error (.unknown (reaches_ident.mpr .refl) hx)
  | case6 expanding x current next hx =>
    obtain ⟨v, hv, -⟩ := exists_checkVar (hs x current next hx).2
    rw [hv]
    exact .ok _
  | case7 expanding x hx =>
    exact .error (.unknownNext (reachesNext_next.mpr rfl) fun current next h => hx current next h)
  | case8 expanding a ih =>
    have ha : Attempt.FailsAs (s.Blames (.not a))
        (s.compileIn expanding a : Attempt ScopeError (Diagram n)) :=
      fun e he => (ih hway e he).mono (fun _ => reaches_not.mpr) fun _ => reachesNext_not.mpr
    exact ha.bind fun _ _ => .ok _
  | case9 expanding op a b iha ihb =>
    have ha : Attempt.FailsAs (s.Blames (.binary op a b))
        (s.compileIn expanding a : Attempt ScopeError (Diagram n)) := by
      have hpart := iha fun x hx y hy => hway x hx y (by simp [Formula.readsCurrent, hy])
      exact fun e he => (hpart e he).mono (fun _ h => reaches_binary.mpr (.inl h))
        fun _ h => reachesNext_binary.mpr (.inl h)
    have hb : Attempt.FailsAs (s.Blames (.binary op a b))
        (s.compileIn expanding b : Attempt ScopeError (Diagram n)) := by
      have hpart := ihb fun x hx y hy => hway x hx y (by simp [Formula.readsCurrent, hy])
      exact fun e he => (hpart e he).mono (fun _ h => reaches_binary.mpr (.inr h))
        fun _ h => reachesNext_binary.mpr (.inr h)
    exact ha.bind fun _ _ => hb.bind fun _ _ => .ok _

theorem InRange.expands_of_compile (hs : s.InRange n) {d : Diagram n} (hd : s.compile f = .ok d) :
    ∃ g, s.Expands f g ∧ ∀ σ, d.eval σ = g.eval (s.currentValue σ) (s.nextValue σ) :=
  hs.expands_of_compileIn ((s.compile_eq f).symm.trans hd)

theorem InRange.failsAs_compile (hs : s.InRange n) (f : Formula) :
    Attempt.FailsAs (s.Blames f) (s.compile f : Attempt ScopeError (Diagram n)) := by
  rw [compile_eq]
  exact hs.failsAs_compileIn fun _ hx => absurd hx List.not_mem_nil

theorem InRange.exists_compile_iff (hs : s.InRange n) :
    (∃ d : Diagram n, s.compile f = .ok d) ↔ s.Meaningful f := by
  constructor
  · rintro ⟨d, hd⟩
    obtain ⟨g, hg, -⟩ := hs.expands_of_compile hd
    exact hg.meaningful
  · intro hf
    cases hd : (s.compile f : Attempt ScopeError (Diagram n)) with
    | ok d => exact ⟨d, rfl⟩
    | error e => exact absurd hf (hs.failsAs_compile f e hd).not_meaningful

/-- The tree of a formula is compiled as the formula is. -/
theorem compile_toSketch (s : Scope) (f : Formula) :
    (f.toSketch.compile s : Attempt ScopeError (Diagram n)) = s.compile f := by
  induction f with
  | const v => rfl
  | ident x => rfl
  | next x => rfl
  | not a ih =>
    rw [Formula.toSketch, Sketch.compile, Sketch.compileAll, Sketch.compileAll, ih]
    simp only [compile_eq]
    rw [compileIn]
    cases (s.compileIn [] a : Attempt ScopeError (Diagram n)) <;> rfl
  | binary op a b iha ihb =>
    rw [Formula.toSketch, Sketch.compile, Sketch.compileAll, Sketch.compileAll, Sketch.compileAll, iha,
      ihb]
    simp only [compile_eq]
    rw [compileIn]
    cases (s.compileIn [] a : Attempt ScopeError (Diagram n)) with
    | error e => rfl
    | ok da => cases (s.compileIn [] b : Attempt ScopeError (Diagram n)) <;> rfl

/-- Whatever abbreviations stand for, a formula is compiled if and only if all that it reaches has a
meaning and none of it stands for itself. Then it is compiled to the function of its only expansion, where
names are read at their current, and below `next` at their next diagram variables. Otherwise it is refused,
and what the refusal names is reached and at fault. -/
theorem compile_exact (hs : s.InRange n) (f : Formula) :
    (f.toSketch.compile s : Attempt ScopeError (Diagram n)) = s.compile f ∧
    ((∃ d : Diagram n, s.compile f = .ok d) ↔ s.Meaningful f) ∧
    (∀ d : Diagram n, s.compile f = .ok d → ∃ g, s.Expands f g ∧ (∀ g', s.Expands f g' → g' = g) ∧
      ∀ σ, d.eval σ = g.eval (s.currentValue σ) (s.nextValue σ)) ∧
    ∀ e, (s.compile f : Attempt ScopeError (Diagram n)) = .error e → s.Blames f e := by
  refine ⟨compile_toSketch s f, hs.exists_compile_iff, fun d hd => ?_, hs.failsAs_compile f⟩
  obtain ⟨g, hg, heval⟩ := hs.expands_of_compile hd
  exact ⟨g, hg, fun g' => hg.unique, heval⟩

/-- A variable, an abbreviation that uses another one twice, and two that stand for each other. -/
def entangled : Scope where
  entries := [("x", .variable 0 1), ("half", .define (.ident "x")),
    ("whole", .define (.binary .and (.ident "half") (.ident "half"))),
    ("ping", .define (.not (.ident "pong"))),
    ("pong", .define (.binary .or (.ident "x") (.ident "ping")))]

/-- Using an abbreviation twice is no recursion, and standing for itself by way of another one is. -/
theorem compile_entangled : entangled.InRange 2 ∧
    (∃ d : Diagram 2, entangled.compile (.ident "whole") = .ok d ∧ ∀ σ, d.eval σ = σ 0) ∧
    ∃ e, (entangled.compile (.not (.ident "ping")) : Attempt ScopeError (Diagram 2)) = .error e ∧
      entangled.Blames (.not (.ident "ping")) e := by
  have hrange : entangled.InRange 2 := by
    intro x current next hx
    obtain ⟨l₁, l₂, hentries, -⟩ := List.lookup_eq_some_iff.mp hx
    have hmem : (x, Binding.variable current next) ∈ entangled.entries := by simp [hentries]
    obtain ⟨rfl, rfl, rfl⟩ : x = "x" ∧ current = 0 ∧ next = 1 := by simpa [entangled] using hmem
    decide
  obtain ⟨-, hwhole, hmeaning, -⟩ := compile_exact hrange (.ident "whole")
  obtain ⟨-, hiff, -, hblames⟩ := compile_exact hrange (.not (.ident "ping"))
  refine ⟨hrange, ?_, ?_⟩
  · have hhalf : entangled.Expands (.ident "half") (.ident "x") := .defined rfl (.declared rfl)
    have hexpands : entangled.Expands (.ident "whole") (.binary .and (.ident "x") (.ident "x")) :=
      .defined rfl (.binary .and hhalf hhalf)
    obtain ⟨d, hd⟩ := hwhole.mpr hexpands.meaningful
    obtain ⟨g, -, honly, heval⟩ := hmeaning d hd
    refine ⟨d, hd, fun σ => ?_⟩
    rw [heval, ← honly _ hexpands]
    exact Bool.and_self _
  · have hping : entangled.Depends "ping" "pong" := ⟨_, rfl, rfl⟩
    have hpong : entangled.Depends "pong" "ping" := ⟨_, rfl, rfl⟩
    cases hd : (entangled.compile (.not (.ident "ping")) : Attempt ScopeError (Diagram 2)) with
    | error e => exact ⟨e, rfl, hblames e hd⟩
    | ok d =>
      have hmeaningful := hiff.mp ⟨d, hd⟩
      have hcycle := hmeaningful.acyclic "ping" ⟨"ping", rfl, .refl⟩
      exact absurd (.tail (.single hping) hpong) hcycle

end Scope
end SymbolicLtl
