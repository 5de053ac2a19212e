import Mathlib.Data.List.Forall2
import SymbolicLtl.Misuse

/-! Computations that may fail, taken apart step by step. -/
namespace SymbolicLtl.Attempt

variable {ε δ α β : Type}

@[simp] theorem ok_bind (a : α) (f : α → Except ε β) : (.ok a >>= f : Except ε β) = f a := rfl

@[simp] theorem error_bind (e : ε) (f : α → Except ε β) :
    (.error e >>= f : Except ε β) = .error e := rfl

theorem bind_eq_ok {x : Except ε α} {f : α → Except ε β} {b : β} :
    x >>= f = .ok b ↔ ∃ a, x = .ok a ∧ f a = .ok b := by
  cases x with
  | error e => simp
  | ok a => simp

theorem bind_eq_error {x : Except ε α} {f : α → Except ε β} {e : ε} :
    x >>= f = .error e ↔ x = .error e ∨ ∃ a, x = .ok a ∧ f a = .error e := by
  cases x with
  | error e' => simp
  | ok a => simp

theorem mapError_eq_ok_iff (f : ε → δ) {x : Except ε α} {a : α} :
    x.mapError f = .ok a ↔ x = .ok a := by
  cases x with
  | error e => exact ⟨nofun, nofun⟩
  | ok b => rw [Except.mapError, Except.ok.injEq, Except.ok.injEq]

@[simp] theorem ofMisuse_ok (a : α) : (ofMisuse (.ok a) : Attempt ε α) = .ok a := rfl

/-- A list of computations succeeds with the results of all of them. -/
theorem mapM_eq_ok {f : α → Except ε β} {l : List α} {bs : List β} :
    l.mapM f = .ok bs ↔ List.Forall₂ (fun a b => f a = .ok b) l bs := by
  induction l generalizing bs with
  | nil => cases bs <;> simp [pure, Except.pure]
  | cons a l ih =>
    rw [List.mapM_cons, bind_eq_ok]
    constructor
    · rintro ⟨b, hb, h⟩
      obtain ⟨bs', hbs', h⟩ := bind_eq_ok.mp h
      cases h
      exact .cons hb (ih.mp hbs')
    · rintro (_ | ⟨hb, hbs⟩)
      exact ⟨_, hb, bind_eq_ok.mpr ⟨_, ih.mpr hbs, rfl⟩⟩

theorem exists_mapM_iff {f : α → Except ε β} {l : List α} :
    (∃ bs, l.mapM f = .ok bs) ↔ ∀ a ∈ l, ∃ b, f a = .ok b := by
  induction l with
  | nil => exact ⟨fun _ => by simp, fun _ => ⟨[], rfl⟩⟩
  | cons a l ih =>
    simp only [List.mapM_cons, bind_eq_ok, List.forall_mem_cons, ← ih]
    constructor
    · rintro ⟨bs, b, hb, bs', hbs', -⟩
      exact ⟨⟨b, hb⟩, bs', hbs'⟩
    · rintro ⟨⟨b, hb⟩, bs', hbs'⟩
      exact ⟨_, b, hb, bs', hbs', rfl⟩

theorem mem_mapM {f : α → Except ε β} {l : List α} {bs : List β} (h : l.mapM f = .ok bs) {b : β} :
    b ∈ bs ↔ ∃ a ∈ l, f a = .ok b := by
  have hall := mapM_eq_ok.mp h
  clear h
  induction hall with
  | nil => simp
  | @cons a b' l bs hb _ ih =>
    simp only [List.mem_cons, ih, exists_eq_or_imp, hb, Except.ok.injEq]
    exact or_congr_left eq_comm

/-- Leaving out what gives no result is done at the end as well. -/
theorem filterMapM_eq {f : α → Except ε (Option β)} {l : List α} :
    l.filterMapM f = (l.mapM f >>= fun os => pure (os.filterMap id)) := by
  induction l with
  | nil => rfl
  | cons a l ih =>
    rw [List.filterMapM_cons, List.mapM_cons]
    cases hf : f a with
    | error e => simp
    | ok o =>
      rw [ok_bind, ok_bind, ih]
      cases l.mapM f with
      | error e => cases o <;> rfl
      | ok os => cases o <;> rfl

theorem exists_filterMapM_iff {f : α → Except ε (Option β)} {l : List α} :
    (∃ bs, l.filterMapM f = .ok bs) ↔ ∀ a ∈ l, ∃ o, f a = .ok o := by
  rw [← exists_mapM_iff, filterMapM_eq]
  simp only [bind_eq_ok]
  exact ⟨fun ⟨_, os, hos, _⟩ => ⟨os, hos⟩, fun ⟨os, hos⟩ => ⟨_, os, hos, rfl⟩⟩

theorem mem_filterMapM {f : α → Except ε (Option β)} {l : List α} {bs : List β}
    (h : l.filterMapM f = .ok bs) {b : β} : b ∈ bs ↔ ∃ a ∈ l, f a = .ok (some b) := by
  rw [filterMapM_eq] at h
  obtain ⟨os, hos, h⟩ := bind_eq_ok.mp h
  cases h
  simp only [List.mem_filterMap, id_eq, exists_eq_right, mem_mapM hos]

section Stateful

variable {σ : Type}

theorem run_liftM (x : Except ε α) (s : σ) :
    (liftM x : ExceptT ε (StateM σ) α).run.run s = (x, s) := by
  cases x <;> rfl

theorem run_bind_ok {x : ExceptT ε (StateM σ) α} {s s' : σ} {a : α}
    (h : x.run.run s = (.ok a, s')) (f : α → ExceptT ε (StateM σ) β) :
    (x >>= f).run.run s = (f a).run.run s' := by
  rw [ExceptT.run_bind, StateT.run_bind, h]
  rfl

theorem run_bind_error {x : ExceptT ε (StateM σ) α} {s s' : σ} {e : ε}
    (h : x.run.run s = (.error e, s')) (f : α → ExceptT ε (StateM σ) β) :
    (x >>= f).run.run s = (.error e, s') := by
  rw [ExceptT.run_bind, StateT.run_bind, h]
  rfl

theorem run_bind_eq_ok {x : ExceptT ε (StateM σ) α} {f : α → ExceptT ε (StateM σ) β} {s s'' : σ}
    {b : β} (h : (x >>= f).run.run s = (.ok b, s'')) :
    ∃ a s', x.run.run s = (.ok a, s') ∧ (f a).run.run s' = (.ok b, s'') := by
  obtain ⟨r, s', hx⟩ : ∃ r s', x.run.run s = (r, s') := ⟨_, _, rfl⟩
  cases r with
  | ok a =>
    rw [run_bind_ok hx] at h
    exact ⟨a, s', hx, h⟩
  | error e =>
    rw [run_bind_error hx] at h
    cases h

end Stateful

/-- Such a computation gives a result or fails in a given way. -/
def FailsAs (P : ε → Prop) (x : Except ε α) : Prop := ∀ e, x = .error e → P e

namespace FailsAs

variable {P : ε → Prop}

theorem ok (a : α) : FailsAs P (.ok a : Except ε α) := by
  intro e h
  cases h

theorem error {e : ε} (h : P e) : FailsAs P (.error e : Except ε α) := by
  intro e' h'
  cases h'
  exact h

theorem bind {x : Except ε α} {f : α → Except ε β} (hx : FailsAs P x)
    (hf : ∀ a, x = .ok a → FailsAs P (f a)) : FailsAs P (x >>= f) := by
  intro e he
  rcases bind_eq_error.mp he with h | ⟨a, ha, h⟩
  · exact hx e h
  · exact hf a ha e h

theorem mapError {Q : δ → Prop} {f : ε → δ} {x : Except ε α} (h : FailsAs (fun e => Q (f e)) x) :
    FailsAs Q (x.mapError f) := by
  cases x with
  | ok a => exact ok a
  | error e => exact error (h e rfl)

theorem mapM {f : α → Except ε β} {l : List α} (h : ∀ a ∈ l, FailsAs P (f a)) :
    FailsAs P (l.mapM f) := by
  induction l with
  | nil => exact ok []
  | cons a l ih =>
    rw [List.forall_mem_cons] at h
    rw [List.mapM_cons]
    apply bind h.1
    intro b _
    apply bind (ih h.2)
    intro bs _
    exact ok (b :: bs)

theorem filterMapM {f : α → Except ε (Option β)} {l : List α} (h : ∀ a ∈ l, FailsAs P (f a)) :
    FailsAs P (l.filterMapM f) := by
  rw [filterMapM_eq]
  apply bind (mapM h)
  intro os _
  exact ok _

/-- Every step of a fold fails in the given way as long as an invariant holds. -/
theorem foldlM {f : β → α → Except ε β} {I : β → Prop} {l : List α}
    (h : ∀ b, I b → ∀ a ∈ l, FailsAs P (f b a) ∧ ∀ b', f b a = .ok b' → I b') {b : β}
    (hb : I b) : FailsAs P (l.foldlM f b) := by
  induction l generalizing b with
  | nil => exact ok b
  | cons a l ih =>
    rw [List.foldlM_cons]
    apply bind (h b hb a List.mem_cons_self).1
    intro b' hb'
    apply ih (fun c hc x hx => h c hc x (List.mem_cons_of_mem a hx))
    exact (h b hb a List.mem_cons_self).2 b' hb'

end FailsAs

/-- Such a computation gives a result or refuses its input. -/
def NeverMisused (x : Attempt ε α) : Prop := ∀ e, x ≠ .error (.misused e)

namespace NeverMisused

theorem iff_failsAs {x : Attempt ε α} :
    NeverMisused x ↔ FailsAs (fun e => ∀ m, e ≠ .misused m) x :=
  ⟨fun h _ he m hm => h m (hm ▸ he), fun h m hm => h _ hm m rfl⟩

theorem ok_or_refused {x : Attempt ε α} (h : NeverMisused x) :
    (∃ a, x = .ok a) ∨ ∃ e, x = .error (.refused e) := by
  cases x with
  | ok a => exact .inl ⟨a, rfl⟩
  | error e =>
    cases e with
    | refused e => exact .inr ⟨e, rfl⟩
    | misused m => exact absurd rfl (h m)

theorem ok (a : α) : NeverMisused (.ok a : Attempt ε α) := nofun

theorem refuse (e : ε) : NeverMisused (Attempt.refuse e : Attempt ε α) := nofun

theorem ofRefusal (x : Except ε α) : NeverMisused (Attempt.ofRefusal x) := by
  cases x with
  | error e => exact nofun
  | ok a => exact nofun

theorem restate {x : Attempt ε α} (h : NeverMisused x) (f : ε → δ) :
    NeverMisused (x.restate f) := by
  intro m hm
  cases x with
  | ok a => cases hm
  | error e =>
    cases e with
    | refused e => cases hm
    | misused m' => exact h m' rfl

theorem bind {x : Attempt ε α} {f : α → Attempt ε β} (hx : NeverMisused x)
    (hf : ∀ a, x = .ok a → NeverMisused (f a)) : NeverMisused (x >>= f) :=
  iff_failsAs.mpr (.bind (iff_failsAs.mp hx) fun a ha => iff_failsAs.mp (hf a ha))

theorem mapM {f : α → Attempt ε β} {l : List α} (h : ∀ a ∈ l, NeverMisused (f a)) :
    NeverMisused (l.mapM f) :=
  iff_failsAs.mpr (.mapM fun a ha => iff_failsAs.mp (h a ha))

theorem filterMapM {f : α → Attempt ε (Option β)} {l : List α} (h : ∀ a ∈ l, NeverMisused (f a)) :
    NeverMisused (l.filterMapM f) :=
  iff_failsAs.mpr (.filterMapM fun a ha => iff_failsAs.mp (h a ha))

/-- An invariant keeps every step of a fold from being misused. -/
theorem foldlM {f : β → α → Attempt ε β} {I : β → Prop} {l : List α}
    (h : ∀ b, I b → ∀ a ∈ l, NeverMisused (f b a) ∧ ∀ b', f b a = .ok b' → I b') {b : β}
    (hb : I b) : NeverMisused (l.foldlM f b) := by
  refine iff_failsAs.mpr (.foldlM (fun b hb a ha => ?_) hb)
  exact ⟨iff_failsAs.mp (h b hb a ha).1, (h b hb a ha).2⟩

end NeverMisused

def RefusesAs (P : ε → Prop) (x : Attempt ε α) : Prop := ∀ e, x = .error (.refused e) → P e

namespace RefusesAs

variable {P : ε → Prop}

theorem iff_failsAs {x : Attempt ε α} :
    RefusesAs P x ↔ FailsAs (fun f => ∀ e, f = .refused e → P e) x :=
  ⟨fun h _ he e hf => h e (hf ▸ he), fun h e he => h _ he e rfl⟩

theorem ok (a : α) : RefusesAs P (.ok a : Attempt ε α) := by
  intro e h
  cases h

theorem refuse {e : ε} (h : P e) : RefusesAs P (Attempt.refuse e : Attempt ε α) := by
  intro e' h'
  cases h'
  exact h

theorem ofMisuse (x : Except Misuse α) : RefusesAs P (Attempt.ofMisuse x) := by
  intro e h
  cases x <;> cases h

theorem ofRefusal {x : Except ε α} (h : FailsAs P x) : RefusesAs P (Attempt.ofRefusal x) := by
  intro e he
  cases x with
  | ok a => cases he
  | error e' =>
    cases he
    exact h e rfl

theorem restate {Q : δ → Prop} {f : ε → δ} {x : Attempt ε α}
    (h : RefusesAs (fun e => Q (f e)) x) : RefusesAs Q (x.restate f) := by
  intro e he
  cases x with
  | ok a => cases he
  | error e' =>
    cases e' with
    | misused m => cases he
    | refused e' =>
      cases he
      exact h e' rfl

theorem bind {x : Attempt ε α} {f : α → Attempt ε β} (hx : RefusesAs P x)
    (hf : ∀ a, x = .ok a → RefusesAs P (f a)) : RefusesAs P (x >>= f) :=
  iff_failsAs.mpr (.bind (iff_failsAs.mp hx) fun a ha => iff_failsAs.mp (hf a ha))

theorem mapM {f : α → Attempt ε β} {l : List α} (h : ∀ a ∈ l, RefusesAs P (f a)) :
    RefusesAs P (l.mapM f) :=
  iff_failsAs.mpr (.mapM fun a ha => iff_failsAs.mp (h a ha))

theorem filterMapM {f : α → Attempt ε (Option β)} {l : List α} (h : ∀ a ∈ l, RefusesAs P (f a)) :
    RefusesAs P (l.filterMapM f) :=
  iff_failsAs.mpr (.filterMapM fun a ha => iff_failsAs.mp (h a ha))

end RefusesAs

end SymbolicLtl.Attempt
