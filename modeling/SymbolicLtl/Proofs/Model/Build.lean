import SymbolicLtl.Proofs.Model.Expansion
import SymbolicLtl.Proofs.Relation.Image

/-!
The transition relation of a model. It is built exactly when all names are different and all formulas
can be read and expanded, so the order of the abbreviations plays no part; and it holds where every
assigned variable takes the value of its formula and every constraint is true.
-/
namespace SymbolicLtl

/-- Under different keys, a list is looked up where it has an entry. -/
theorem lookup_eq_some_iff_mem {α β : Type} [BEq α] [LawfulBEq α] {l : List (α × β)}
    (h : (l.map Prod.fst).Nodup) {a : α} {b : β} : l.lookup a = some b ↔ (a, b) ∈ l := by
  induction l with
  | nil => simp
  | cons e l ih =>
    obtain ⟨a', b'⟩ := e
    rw [List.map_cons, List.nodup_cons] at h
    rw [List.lookup_cons, List.mem_cons, Prod.mk.injEq]
    by_cases ha : a = a'
    · subst ha
      have hrest : (a, b) ∉ l := fun hmem => h.1 (List.mem_map.mpr ⟨_, hmem, rfl⟩)
      simp [hrest, eq_comm]
    · have hne : (a == a') = false := by simpa using ha
      simp [hne, ha, ih h.2]

namespace Scope

variable {s t : Scope}

theorem bind_eq_ok {x : String} {b : Binding} :
    s.bind x b = .ok t ↔ x ∉ s.entries.map Prod.fst ∧ t = ⟨s.entries ++ [(x, b)]⟩ := by
  unfold bind lookup
  cases hx : s.entries.lookup x with
  | none =>
    have hnew : x ∉ s.entries.map Prod.fst := by
      intro hmem
      obtain ⟨e, he, rfl⟩ := List.mem_map.mp hmem
      have hne := List.lookup_eq_none_iff.mp hx e he
      simp at hne
    rw [Except.ok.injEq, eq_comm, and_iff_right hnew]
  | some b' =>
    have hold : x ∈ s.entries.map Prod.fst := by
      obtain ⟨l₁, l₂, heq, -⟩ := List.lookup_eq_some_iff.mp hx
      simp [heq]
    simp [hold]

/-- Names are added one by one as long as each of them is new. -/
theorem foldlM_bind {l : List (String × Binding)} (hs : (s.entries.map Prod.fst).Nodup) :
    l.foldlM (fun s e => s.bind e.1 e.2) s = .ok t ↔
      ((s.entries ++ l).map Prod.fst).Nodup ∧ t = ⟨s.entries ++ l⟩ := by
  induction l generalizing s with
  | nil => simp [hs, pure, Except.pure, eq_comm]
  | cons e l ih =>
    rw [List.foldlM_cons, Attempt.bind_eq_ok]
    simp only [bind_eq_ok]
    constructor
    · rintro ⟨s', ⟨hnew, rfl⟩, h⟩
      have hs' : ((s.entries ++ [e]).map Prod.fst).Nodup := by
        rw [List.map_append, List.nodup_append]
        exact ⟨hs, by simp, fun a ha b hb => by rintro rfl; simp at hb; exact hnew (hb ▸ ha)⟩
      simpa using (ih hs').mp h
    · rintro ⟨hnodup, rfl⟩
      have hsplit : s.entries ++ e :: l = s.entries ++ [e] ++ l := by simp
      rw [hsplit] at hnodup
      have hs' : ((s.entries ++ [e]).map Prod.fst).Nodup := by
        rw [List.map_append] at hnodup
        exact (List.nodup_append.mp hnodup).1
      refine ⟨_, ⟨fun hmem => ?_, rfl⟩, (ih hs').mpr ⟨hnodup, by rw [hsplit]⟩⟩
      rw [List.map_append, List.nodup_append] at hs'
      exact hs'.2.2 _ hmem e.1 (by simp) rfl

end Scope

namespace Model

variable {m : Model} {s : Scope} {n : Nat}

def varEntries (m : Model) : List (String × Binding) :=
  m.vars.zipIdx.map fun (x, i) => (x, .variable (Scope.slotOf i).1 (Scope.slotOf i).2)

def defineEntry (d : String × String) : Except SyntaxError (String × Binding) :=
  (Formula.parse d.2).map fun f => (d.1, .define f)

theorem defineEntry_eq_ok {d : String × String} {e : String × Binding} :
    defineEntry d = .ok e ↔ ∃ f, Formula.parse d.2 = .ok f ∧ e = (d.1, .define f) := by
  unfold defineEntry
  cases Formula.parse d.2 with
  | error err => simp [Except.map]
  | ok f => simp [Except.map, eq_comm]

theorem map_fst_varEntries (m : Model) : m.varEntries.map Prod.fst = m.vars := by
  rw [varEntries, List.map_map]
  exact List.zipIdx_map_fst 0 m.vars

theorem ofVars_eq_ok (m : Model) :
    Scope.ofVars m.vars = .ok s ↔ m.vars.Nodup ∧ s = ⟨m.varEntries⟩ := by
  have hfold : Scope.ofVars m.vars = m.varEntries.foldlM (fun s e => s.bind e.1 e.2) .empty := by
    rw [varEntries, List.foldlM_map]
    rfl
  rw [hfold, Scope.foldlM_bind (by simp [Scope.empty])]
  simp only [Scope.empty, List.nil_append, map_fst_varEntries]

theorem foldlM_define_eq_ok {defines : List (String × String)} {t : Scope} :
    defines.foldlM (fun s (name, text) => do
      let f ← (Formula.parse text).mapError (ModelError.badDefine name)
      (s.define name f).mapError .scope) s = .ok t ↔
    ∃ es, defines.mapM defineEntry = .ok es ∧ es.foldlM (fun s e => s.bind e.1 e.2) s = .ok t := by
  induction defines generalizing s with
  | nil => simp [pure, Except.pure]
  | cons d defines ih =>
    obtain ⟨x, text⟩ := d
    rw [List.foldlM_cons, List.mapM_cons, Attempt.bind_eq_ok]
    simp only [ih]
    constructor
    · rintro ⟨s', hs', es, hes, ht⟩
      obtain ⟨f, hf, hs'⟩ := Attempt.bind_eq_ok.mp hs'
      have hf : Formula.parse text = .ok f := (Attempt.mapError_eq_ok_iff _).mp hf
      have hs' : s.bind x (.define f) = .ok s' := (Attempt.mapError_eq_ok_iff _).mp hs'
      refine ⟨(x, .define f) :: es, ?_, ?_⟩
      · have he : defineEntry (x, text) = .ok (x, .define f) := defineEntry_eq_ok.mpr ⟨f, hf, rfl⟩
        exact Attempt.bind_eq_ok.mpr ⟨_, he, Attempt.bind_eq_ok.mpr ⟨es, hes, rfl⟩⟩
      · rw [List.foldlM_cons]
        exact Attempt.bind_eq_ok.mpr ⟨s', hs', ht⟩
    · rintro ⟨es', hes', ht⟩
      obtain ⟨e, he, hes'⟩ := Attempt.bind_eq_ok.mp hes'
      obtain ⟨es, hes, heq⟩ := Attempt.bind_eq_ok.mp hes'
      obtain ⟨f, hf, rfl⟩ := defineEntry_eq_ok.mp he
      cases heq
      rw [List.foldlM_cons] at ht
      obtain ⟨s', hs', ht⟩ := Attempt.bind_eq_ok.mp ht
      refine ⟨s', Attempt.bind_eq_ok.mpr ⟨f, ?_, ?_⟩, es, hes, ht⟩
      · exact (Attempt.mapError_eq_ok_iff _).mpr hf
      · exact (Attempt.mapError_eq_ok_iff _).mpr hs'

theorem map_fst_of_mapM {defines : List (String × String)} {es : List (String × Binding)}
    (h : defines.mapM defineEntry = .ok es) : es.map Prod.fst = defines.map Prod.fst := by
  have hall := Attempt.mapM_eq_ok.mp h
  clear h
  induction hall with
  | nil => rfl
  | cons he _ ih =>
    obtain ⟨f, -, rfl⟩ := defineEntry_eq_ok.mp he
    rw [List.map_cons, List.map_cons, ih]

/-- The names of a model: those of its variables, then its abbreviations. -/
theorem scope_eq_ok : m.scope = .ok s ↔ (m.vars ++ m.defines.map Prod.fst).Nodup ∧
    ∃ es, m.defines.mapM defineEntry = .ok es ∧ s = ⟨m.varEntries ++ es⟩ := by
  unfold scope
  simp only [Attempt.bind_eq_ok, Attempt.mapError_eq_ok_iff, ofVars_eq_ok, foldlM_define_eq_ok]
  constructor
  · rintro ⟨s₀, ⟨hnodup, rfl⟩, es, hes, h⟩
    have hvars : (m.varEntries.map Prod.fst).Nodup := by rwa [map_fst_varEntries]
    obtain ⟨hall, rfl⟩ := (Scope.foldlM_bind (s := ⟨m.varEntries⟩) hvars).mp h
    rw [List.map_append, map_fst_varEntries, map_fst_of_mapM hes] at hall
    exact ⟨hall, es, hes, rfl⟩
  · rintro ⟨hall, es, hes, rfl⟩
    have hnodup : m.vars.Nodup := (List.nodup_append.mp hall).1
    have hvars : (m.varEntries.map Prod.fst).Nodup := by rwa [map_fst_varEntries]
    refine ⟨_, ⟨hnodup, rfl⟩, es, hes, (Scope.foldlM_bind (s := ⟨m.varEntries⟩) hvars).mpr ⟨?_, rfl⟩⟩
    rw [List.map_append, map_fst_varEntries, map_fst_of_mapM hes]
    exact hall

theorem exists_scope_iff : (∃ s, m.scope = .ok s) ↔
    (m.vars ++ m.defines.map Prod.fst).Nodup ∧ ∀ d ∈ m.defines, ∃ f, Formula.parse d.2 = .ok f := by
  have hparse : (∃ es, m.defines.mapM defineEntry = .ok es) ↔
      ∀ d ∈ m.defines, ∃ f, Formula.parse d.2 = .ok f := by
    rw [Attempt.exists_mapM_iff]
    refine forall_congr' fun d => imp_congr_right fun _ => ?_
    simp only [defineEntry_eq_ok]
    exact ⟨fun ⟨_, f, hf, _⟩ => ⟨f, hf⟩, fun ⟨f, hf⟩ => ⟨_, f, hf, rfl⟩⟩
  rw [← hparse]
  constructor
  · rintro ⟨s, hs⟩
    obtain ⟨hnodup, es, hes, -⟩ := scope_eq_ok.mp hs
    exact ⟨hnodup, es, hes⟩
  · rintro ⟨hnodup, es, hes⟩
    exact ⟨_, scope_eq_ok.mpr ⟨hnodup, es, hes, rfl⟩⟩

theorem mem_varEntries {x : String} {b : Binding} : (x, b) ∈ m.varEntries ↔
    ∃ i, m.vars[i]? = some x ∧ b = .variable (currentVar i) (nextVar i) := by
  simp only [varEntries, List.mem_map, Prod.exists, List.mem_zipIdx_iff_getElem?, Prod.mk.injEq]
  constructor
  · rintro ⟨x', i, hx, rfl, rfl⟩
    exact ⟨i, hx, by simp [Scope.slotOf, currentVar, nextVar]⟩
  · rintro ⟨i, hx, rfl⟩
    exact ⟨x, i, hx, rfl, by simp [Scope.slotOf, currentVar, nextVar]⟩

theorem lookup_variable (h : m.scope = .ok s) {i : Nat} {x : String} (hx : m.vars[i]? = some x) :
    s.lookup x = some (.variable (currentVar i) (nextVar i)) := by
  obtain ⟨hnodup, es, hes, rfl⟩ := scope_eq_ok.mp h
  have hkeys : ((m.varEntries ++ es).map Prod.fst).Nodup := by
    rwa [List.map_append, map_fst_varEntries, map_fst_of_mapM hes]
  refine (lookup_eq_some_iff_mem hkeys).mpr (List.mem_append_left _ ?_)
  exact mem_varEntries.mpr ⟨i, hx, rfl⟩

theorem resolves (h : m.scope = .ok s) : m.Resolves s := by
  have hvariable := fun {i x} => lookup_variable (i := i) (x := x) h
  obtain ⟨hnodup, es, hes, rfl⟩ := scope_eq_ok.mp h
  have hkeys : ((m.varEntries ++ es).map Prod.fst).Nodup := by
    rwa [List.map_append, map_fst_varEntries, map_fst_of_mapM hes]
  have hlookup : ∀ {x b}, (⟨m.varEntries ++ es⟩ : Scope).lookup x = some b ↔
      (x, b) ∈ m.varEntries ++ es := lookup_eq_some_iff_mem hkeys
  refine ⟨fun x hx => hvariable ?_, fun x text hx => ?_, fun x b hx => ?_⟩
  · rw [List.getElem?_eq_getElem (List.idxOf_lt_length_of_mem hx), List.getElem_idxOf]
  · obtain ⟨e, he⟩ := Attempt.exists_mapM_iff.mp ⟨es, hes⟩ _ hx
    obtain ⟨f, hf, rfl⟩ := defineEntry_eq_ok.mp he
    refine ⟨f, hf, hlookup.mpr (List.mem_append_right _ ?_)⟩
    exact (Attempt.mem_mapM hes).mpr ⟨_, hx, he⟩
  · rcases List.mem_append.mp (hlookup.mp hx) with hmem | hmem
    · obtain ⟨i, hi, -⟩ := mem_varEntries.mp hmem
      exact .inl (List.mem_of_getElem? hi)
    · obtain ⟨⟨x', text⟩, hd, he⟩ := (Attempt.mem_mapM hes).mp hmem
      obtain ⟨f, -, heq⟩ := defineEntry_eq_ok.mp he
      cases heq
      exact .inr ⟨text, hd⟩

theorem initialSet_eq_ok {d : Diagram n} : m.initialSet n s = .ok d ↔
    (m.init = "" ∧ d = .const true) ∨ (m.init ≠ "" ∧
      ∃ f, Formula.parse m.init = .ok f ∧ f.hasNext = false ∧ s.compile f = .ok d) := by
  unfold initialSet
  by_cases hinit : m.init = ""
  · simp only [hinit, if_true, ne_eq, not_true_eq_false, false_and, or_false, true_and]
    exact ⟨fun h => (Except.ok.inj h).symm, fun h => congrArg Except.ok h.symm⟩
  simp only [hinit, if_false, false_and, false_or, ne_eq, not_false_eq_true, true_and]
  rw [Attempt.bind_eq_ok]
  refine exists_congr fun f => and_congr ?_ ?_
  · exact (Attempt.mapError_eq_ok_iff _).trans (Attempt.mapError_eq_ok_iff _)
  · cases hnext : f.hasNext with
    | true => simp [Attempt.refuse]
    | false =>
      simp only [Bool.false_eq_true, if_false, true_and]
      exact Attempt.mapError_eq_ok_iff _

theorem assignment_eq_ok {i : Nat} {x text : String} {d : Diagram n} (hi : nextVar i < n) :
    assignment s i x text = .ok d ↔ ∃ value : Diagram n, s.compileText text = .ok value ∧
      d = (Diagram.var ⟨nextVar i, hi⟩).iff value := by
  unfold assignment
  rw [Attempt.bind_eq_ok]
  refine exists_congr fun value => and_congr (Attempt.mapError_eq_ok_iff _) ?_
  rw [Diagram.checkVar_val ⟨nextVar i, hi⟩, Attempt.ofMisuse_ok, Attempt.ok_bind]
  exact ⟨fun h => (Except.ok.inj h).symm, fun h => congrArg Except.ok h.symm⟩

theorem nextVar_lt_of_getElem? (hn : m.varnum ≤ n) {i : Nat} {x : String}
    (hx : m.vars[i]? = some x) : nextVar i < n := by
  have hi : i < m.vars.length := (List.getElem?_eq_some_iff.mp hx).1
  unfold varnum at hn
  unfold nextVar
  omega

structure Transitions (m : Model) (P : String → Prop) : Prop where
  next : ∀ x ∈ m.vars, ∀ text, m.next.lookup x = some text → P text
  trans : ∀ text ∈ m.trans, P text

/-- A transition: each assigned variable takes the value of its formula, and each constraint is
true. -/
structure Allows (m : Model) (σ : Nat → Bool) : Prop where
  next : ∀ (i : Nat) x text, m.vars[i]? = some x → m.next.lookup x = some text →
    m.Yields text σ (σ (nextVar i))
  trans : ∀ text ∈ m.trans, m.Yields text σ true

def assignmentOf (m : Model) (n : Nat) (s : Scope) (e : String × Nat) :
    Attempt ModelError (Option (Diagram n)) :=
  match m.next.lookup e.1 with
  | some text => return some (← assignment s e.2 e.1 text)
  | none => return none

theorem assignmentOf_eq_ok {x : String} {i : Nat} {o : Option (Diagram n)} :
    m.assignmentOf n s (x, i) = .ok o ↔ (m.next.lookup x = none ∧ none = o) ∨
      ∃ text c, m.next.lookup x = some text ∧ assignment s i x text = .ok c ∧ some c = o := by
  unfold assignmentOf
  cases m.next.lookup x with
  | none => simp [pure, Except.pure]
  | some text => simp [Attempt.bind_eq_ok, pure, Except.pure]

def constraintOf (n : Nat) (s : Scope) (e : String × Nat) : Attempt ModelError (Diagram n) :=
  (s.compileText e.1).restate (.badTrans e.2)

theorem constraints_eq_ok {cs : List (Diagram n)} : m.constraints n s = .ok cs ↔
    ∃ as, m.vars.zipIdx.filterMapM (m.assignmentOf n s) = .ok as ∧
      ∃ os, m.trans.zipIdx.mapM (constraintOf n s) = .ok os ∧ as ++ os = cs := by
  have hconstraints : m.constraints n s = (m.vars.zipIdx.filterMapM (m.assignmentOf n s) >>=
      fun as => m.trans.zipIdx.mapM (constraintOf n s) >>= fun os => .ok (as ++ os)) := rfl
  simp only [hconstraints, Attempt.bind_eq_ok, Except.ok.injEq]

theorem exists_constraints_iff (h : m.Resolves s) (hn : m.varnum ≤ n) :
    (∃ cs, m.constraints n s = .ok cs) ↔ m.Transitions m.Expandable := by
  have hassign : ∀ {i x}, m.vars[i]? = some x → ∀ text,
      (∃ c : Diagram n, assignment s i x text = .ok c) ↔ m.Expandable text := by
    intro i x hx text
    simp only [assignment_eq_ok (nextVar_lt_of_getElem? hn hx), ← h.exists_compileText_iff hn]
    exact ⟨fun ⟨_, v, hv, _⟩ => ⟨v, hv⟩, fun ⟨v, hv⟩ => ⟨_, v, hv, rfl⟩⟩
  constructor
  · rintro ⟨cs, hcs⟩
    obtain ⟨as, has, os, hos, -⟩ := constraints_eq_ok.mp hcs
    have hall := Attempt.exists_filterMapM_iff.mp ⟨as, has⟩
    have htrans := Attempt.exists_mapM_iff.mp ⟨os, hos⟩
    refine ⟨fun x hx text hlookup => ?_, fun text hmem => ?_⟩
    · obtain ⟨i, hi⟩ := List.mem_iff_getElem?.mp hx
      obtain ⟨o, ho⟩ := hall (x, i) (List.mem_zipIdx_iff_getElem?.mpr hi)
      rcases assignmentOf_eq_ok.mp ho with ⟨hnone, -⟩ | ⟨text', c, hsome, hc, -⟩
      · rw [hlookup] at hnone
        cases hnone
      · obtain rfl : text = text' := Option.some.inj (hlookup.symm.trans hsome)
        exact (hassign hi text).mp ⟨c, hc⟩
    · obtain ⟨k, hk⟩ := List.mem_iff_getElem?.mp hmem
      obtain ⟨c, hc⟩ := htrans (text, k) (List.mem_zipIdx_iff_getElem?.mpr hk)
      exact (h.exists_compileText_iff hn).mp ⟨c, (Attempt.mapError_eq_ok_iff _).mp hc⟩
  · intro hall
    have hassigned : ∀ e ∈ m.vars.zipIdx, ∃ o, m.assignmentOf n s e = .ok o := by
      rintro ⟨x, i⟩ he
      have hi : m.vars[i]? = some x := List.mem_zipIdx_iff_getElem?.mp he
      cases hlookup : m.next.lookup x with
      | none => exact ⟨none, assignmentOf_eq_ok.mpr (.inl ⟨hlookup, rfl⟩)⟩
      | some text =>
        obtain ⟨c, hc⟩ := (hassign hi text).mpr (hall.next x (List.mem_of_getElem? hi) text hlookup)
        exact ⟨some c, assignmentOf_eq_ok.mpr (.inr ⟨text, c, hlookup, hc, rfl⟩)⟩
    have hothers : ∀ e ∈ m.trans.zipIdx, ∃ c, constraintOf n s e = .ok c := by
      rintro ⟨text, k⟩ he
      have hk : m.trans[k]? = some text := List.mem_zipIdx_iff_getElem?.mp he
      obtain ⟨c, hc⟩ := (h.exists_compileText_iff hn).mpr (hall.trans text (List.mem_of_getElem? hk))
      exact ⟨c, (Attempt.mapError_eq_ok_iff _).mpr hc⟩
    obtain ⟨as, has⟩ := Attempt.exists_filterMapM_iff.mpr hassigned
    obtain ⟨os, hos⟩ := Attempt.exists_mapM_iff.mpr hothers
    exact ⟨as ++ os, constraints_eq_ok.mpr ⟨as, has, os, hos, rfl⟩⟩

theorem mem_constraints {cs : List (Diagram n)} (hcs : m.constraints n s = .ok cs) {c : Diagram n} :
    c ∈ cs ↔ (∃ i x text, m.vars[i]? = some x ∧ m.next.lookup x = some text ∧
      assignment s i x text = .ok c) ∨ ∃ text ∈ m.trans, s.compileText text = .ok c := by
  obtain ⟨as, has, os, hos, rfl⟩ := constraints_eq_ok.mp hcs
  rw [List.mem_append, Attempt.mem_filterMapM has, Attempt.mem_mapM hos]
  refine or_congr ?_ ?_
  · constructor
    · rintro ⟨⟨x, i⟩, he, hc⟩
      have hi : m.vars[i]? = some x := List.mem_zipIdx_iff_getElem?.mp he
      rcases assignmentOf_eq_ok.mp hc with ⟨-, hnone⟩ | ⟨text, c', hlookup, hc', hsome⟩
      · cases hnone
      · cases hsome
        exact ⟨i, x, text, hi, hlookup, hc'⟩
    · rintro ⟨i, x, text, hi, hlookup, hc⟩
      exact ⟨(x, i), List.mem_zipIdx_iff_getElem?.mpr hi,
        assignmentOf_eq_ok.mpr (.inr ⟨text, c, hlookup, hc, rfl⟩)⟩
  · constructor
    · rintro ⟨⟨text, k⟩, he, hc⟩
      have hk : m.trans[k]? = some text := List.mem_zipIdx_iff_getElem?.mp he
      exact ⟨text, List.mem_of_getElem? hk, (Attempt.mapError_eq_ok_iff _).mp hc⟩
    · rintro ⟨text, hmem, hc⟩
      obtain ⟨k, hk⟩ := List.mem_iff_getElem?.mp hmem
      exact ⟨(text, k), List.mem_zipIdx_iff_getElem?.mpr hk, (Attempt.mapError_eq_ok_iff _).mpr hc⟩

theorem Resolves.yields_iff_of_compileText (h : m.Resolves s) (hn : m.varnum ≤ n) {text : String}
    {d : Diagram n} (hd : s.compileText text = .ok d) (σ : Nat → Bool) (v : Bool) :
    m.Yields text σ v ↔ d.eval σ = v := by
  obtain ⟨f, hf, hd⟩ := compileText_eq_ok.mp hd
  exact h.yields_iff hn hf hd σ v

/-- The constraints of a model are true at its transitions. -/
theorem allows_iff (h : m.Resolves s) (hn : m.varnum ≤ n) {cs : List (Diagram n)}
    (hcs : m.constraints n s = .ok cs) (σ : Nat → Bool) :
    (∀ c ∈ cs, c.eval σ = true) ↔ m.Allows σ := by
  have hall := (exists_constraints_iff h hn).mp ⟨cs, hcs⟩
  constructor
  · intro hσ
    refine ⟨fun i x text hx hlookup => ?_, fun text hmem => ?_⟩
    · obtain ⟨d, hd⟩ := (h.exists_compileText_iff hn).mpr
        (hall.next x (List.mem_of_getElem? hx) text hlookup)
      have hc := (assignment_eq_ok (x := x) (nextVar_lt_of_getElem? hn hx)).mpr ⟨d, hd, rfl⟩
      have hiff := hσ _ ((mem_constraints hcs).mpr (.inl ⟨i, x, text, hx, hlookup, hc⟩))
      rw [Diagram.eval_iff, Diagram.eval_var, beq_iff_eq] at hiff
      exact (h.yields_iff_of_compileText hn hd σ _).mpr hiff.symm
    · obtain ⟨d, hd⟩ := (h.exists_compileText_iff hn).mpr (hall.trans text hmem)
      have htrue := hσ d ((mem_constraints hcs).mpr (.inr ⟨text, hmem, hd⟩))
      exact (h.yields_iff_of_compileText hn hd σ _).mpr htrue
  · intro hσ c hc
    rcases (mem_constraints hcs).mp hc with ⟨i, x, text, hx, hlookup, hc⟩ | ⟨text, hmem, hd⟩
    · obtain ⟨d, hd, rfl⟩ := (assignment_eq_ok (nextVar_lt_of_getElem? hn hx)).mp hc
      have hvalue := (h.yields_iff_of_compileText hn hd σ _).mp (hσ.next i x text hx hlookup)
      rw [Diagram.eval_iff, Diagram.eval_var, beq_iff_eq]
      exact hvalue.symm
    · exact (h.yields_iff_of_compileText hn hd σ _).mp (hσ.trans text hmem)

/-- What a model needs for a relation: different names, and formulas that can be read and expanded.
The formula of the initial states itself does not speak of next values. -/
structure Buildable (m : Model) : Prop where
  names : (m.vars ++ m.defines.map Prod.fst).Nodup
  defines : ∀ d ∈ m.defines, ∃ f, Formula.parse d.2 = .ok f
  init : m.init ≠ "" → ∃ f, Formula.parse m.init = .ok f ∧ f.hasNext = false ∧
    ∃ k g, m.Expands k f g
  transitions : m.Transitions m.Expandable

theorem build_eq_ok {method : Method} {r : Relation n} : m.build n method = .ok (r, s) ↔
    m.scope = .ok s ∧ ∃ init cs, m.initialSet n s = .ok init ∧ m.constraints n s = .ok cs ∧
      Relation.make m.vars.length init cs method = .ok r := by
  unfold build
  simp only [Attempt.bind_eq_ok]
  constructor
  · rintro ⟨s', hs', init, hinit, cs, hcs, r', hr', heq⟩
    cases heq
    exact ⟨(Attempt.mapError_eq_ok_iff _).mp hs', init, cs, hinit, hcs,
      (Attempt.mapError_eq_ok_iff _).mp hr'⟩
  · rintro ⟨hs, init, cs, hinit, hcs, hr⟩
    exact ⟨s, (Attempt.mapError_eq_ok_iff _).mpr hs, init, hinit, cs, hcs, r,
      (Attempt.mapError_eq_ok_iff _).mpr hr, rfl⟩

theorem exists_build_iff (hn : m.varnum ≤ n) {method : Method} (hmethod : ∀ code, method ≠ .other code) :
    (∃ b : Relation n × Scope, m.build n method = .ok b) ↔ m.Buildable := by
  constructor
  · rintro ⟨⟨r, s⟩, h⟩
    obtain ⟨hs, init, cs, hinit, hcs, -⟩ := build_eq_ok.mp h
    obtain ⟨hnames, hdefines⟩ := exists_scope_iff.mp ⟨s, hs⟩
    have hres := resolves hs
    refine ⟨hnames, hdefines, fun hne => ?_, (exists_constraints_iff hres hn).mp ⟨cs, hcs⟩⟩
    rcases initialSet_eq_ok.mp hinit with ⟨hempty, -⟩ | ⟨-, f, hf, hnext, hd⟩
    · exact absurd hempty hne
    · exact ⟨f, hf, hnext, (hres.exists_compile_iff hn).mp ⟨init, hd⟩⟩
  · intro h
    obtain ⟨s, hs⟩ := exists_scope_iff.mpr ⟨h.names, h.defines⟩
    have hres := resolves hs
    have hinit : ∃ init, m.initialSet n s = .ok init := by
      by_cases hempty : m.init = ""
      · exact ⟨_, initialSet_eq_ok.mpr (.inl ⟨hempty, rfl⟩)⟩
      · obtain ⟨f, hf, hnext, hexpands⟩ := h.init hempty
        obtain ⟨d, hd⟩ := (hres.exists_compile_iff hn).mpr hexpands
        exact ⟨d, initialSet_eq_ok.mpr (.inr ⟨hempty, f, hf, hnext, hd⟩)⟩
    obtain ⟨init, hinit⟩ := hinit
    obtain ⟨cs, hcs⟩ := (exists_constraints_iff hres hn).mpr h.transitions
    obtain ⟨parts, hparts⟩ := Relation.exists_partsOf hmethod cs
    exact ⟨_, build_eq_ok.mpr ⟨hs, init, cs, hinit, hcs, Relation.make_eq hn init hparts⟩⟩

theorem neverMisused_constraints (h : m.Resolves s) (hn : m.varnum ≤ n) :
    Attempt.NeverMisused (m.constraints n s) := by
  have hassigned : ∀ e ∈ m.vars.zipIdx, Attempt.NeverMisused (m.assignmentOf n s e) := by
    rintro ⟨x, i⟩ he
    have hi : nextVar i < n := nextVar_lt_of_getElem? hn (List.mem_zipIdx_iff_getElem?.mp he)
    unfold assignmentOf
    cases m.next.lookup x with
    | none => exact .ok none
    | some text =>
      refine Attempt.NeverMisused.bind ?_ fun _ _ => .ok _
      unfold assignment
      apply Attempt.NeverMisused.bind ((h.neverMisused_compileText hn text).restate _)
      intro value _
      rw [Diagram.checkVar_val ⟨nextVar i, hi⟩]
      exact .ok _
  apply Attempt.NeverMisused.bind (.filterMapM hassigned)
  intro as _
  refine Attempt.NeverMisused.bind (.mapM fun e _ => ?_) fun _ _ => .ok _
  exact (h.neverMisused_compileText hn e.1).restate _

theorem neverMisused_initialSet (h : m.Resolves s) (hn : m.varnum ≤ n) :
    Attempt.NeverMisused (m.initialSet n s) := by
  unfold initialSet
  split
  · exact .ok _
  apply Attempt.NeverMisused.bind (.ofRefusal _)
  intro f _
  split
  · exact .refuse _
  · exact (h.neverMisused_compile hn f).restate _

/-- A model with enough diagram variables is built or refused. -/
theorem neverMisused_build (hn : m.varnum ≤ n) (method : Method) :
    Attempt.NeverMisused (m.build n method) := by
  unfold build
  apply Attempt.NeverMisused.bind (.ofRefusal _)
  intro s hs
  have hres := resolves ((Attempt.mapError_eq_ok_iff _).mp hs)
  apply Attempt.NeverMisused.bind (neverMisused_initialSet hres hn)
  intro init _
  apply Attempt.NeverMisused.bind (neverMisused_constraints hres hn)
  intro cs _
  have hmake : Attempt.NeverMisused (Relation.make m.vars.length init cs method) := by
    cases hparts : Relation.partsOf method cs with
    | ok parts =>
      rw [Relation.make_eq hn init hparts]
      exact .ok _
    | error e =>
      rw [Relation.make_eq_refused hn init hparts]
      exact .refuse e
  exact (hmake.restate _).bind fun _ _ => .ok _

end Model
end SymbolicLtl
