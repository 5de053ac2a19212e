import SymbolicLtl.Proofs.Automaton.InPlace

/-!
Sessions with automata: they are made, changed, copied and read from claims, in any order, and calls
that fail are among the others. No two objects in memory share a set, so what a call does to one of them
is not seen at the others, and after every session the objects are the automata that the same calls make
of values.
-/
namespace SymbolicLtl.Automaton

variable {n : Nat}

inductive Change (n : Nat) where
  | addEdge (source target : Int) (label : Diagram n)
  | addInitial (q : Int)
  | addAccepting (q : Int)

namespace Change

def apply (a : Automaton n) : Change n → Except Misuse (Automaton n)
  | addEdge source target label => a.addEdge source target label
  | addInitial q => a.addInitial q
  | addAccepting q => a.addAccepting q

def enact : Change n → InPlace n Unit
  | addEdge source target label => Object.addEdge source target label
  | addInitial q => Object.addInitial q
  | addAccepting q => Object.addAccepting q

theorem settles_enact (c : Change n) (a : Automaton n) (others : Set Nat) (before : Sets) :
    InPlace.Settles others before c.enact a (Attempt.ofMisuse (c.apply a)) := by
  cases c with
  | addEdge source target label => exact Object.settles_addEdge source target label
  | addInitial q => exact Object.settles_addInitial q
  | addAccepting q => exact Object.settles_addAccepting q

end Change

/-- A call. Automata have numbers in the order in which they were made. A change is given for any number
of variables, and made for that of the automaton. -/
inductive Call where
  | new (n : Nat) (size : Int)
  | change (i : Nat) (change : (n : Nat) → Change n)
  | translocate (i m : Nat)
  | parse (n : Nat) (scope : Scope) (text : String)

def Call.changed : Call → Option Nat
  | change i _ => some i
  | _ => none

abbrev Store := List (Σ n, Automaton n)

namespace Store

def keep (store : Store) (result : Attempt ClaimError (Automaton n)) :
    Attempt ClaimError Unit × Store :=
  settle (result.map fun a => store ++ [⟨n, a⟩]) store

/-- Performs a call, which may fail, and gives what is kept afterwards. -/
def perform (store : Store) : Call → Attempt ClaimError Unit × Store
  | .new n size => keep store (Attempt.ofMisuse (Automaton.new n size))
  | .change i change =>
    match store[i]? with
    | none => (.error (.misused .badIndex), store)
    | some ⟨n, a⟩ =>
      let outcome := settle (Attempt.ofMisuse ((change n).apply a)) a
      (outcome.1, store.set i ⟨n, outcome.2⟩)
  | .translocate i m =>
    match store[i]? with
    | none => (.error (.misused .badIndex), store)
    | some ⟨_, a⟩ => keep store (Attempt.ofMisuse (a.translocate m))
  | .parse n scope text => keep store (NeverClaim.parse scope text : Attempt _ (Automaton n))

def run (store : Store) (calls : List Call) : Store :=
  calls.foldl (fun store c => (perform store c).2) store

end Store

structure Memory where
  sets : Sets
  objects : List (Σ n, Object n)

namespace Memory

def blank : Memory := ⟨[], []⟩

/-- What is found at the objects and behind their references. -/
def view (mem : Memory) : List (Σ n, Tables n) :=
  mem.objects.map fun o => ⟨o.1, o.2.tables mem.sets⟩

def keep (mem : Memory) (making : Making n) : Attempt ClaimError Unit × Memory :=
  match making.run.run mem.sets with
  | (.ok o, sets) => (.ok (), ⟨sets, mem.objects ++ [⟨n, o⟩]⟩)
  | (.error e, sets) => (.error e, ⟨sets, mem.objects⟩)

def perform (mem : Memory) : Call → Attempt ClaimError Unit × Memory
  | .new n size => mem.keep (Object.new n size)
  | .change i change =>
    match mem.objects[i]? with
    | none => (.error (.misused .badIndex), mem)
    | some ⟨n, o⟩ =>
      let outcome := (change n).enact.run.run ⟨mem.sets, o⟩
      (outcome.1, ⟨outcome.2.sets, mem.objects.set i ⟨n, outcome.2.object⟩⟩)
  | .translocate i m =>
    match mem.objects[i]? with
    | none => (.error (.misused .badIndex), mem)
    | some ⟨_, o⟩ => mem.keep (o.translocate m)
  | .parse n scope text => mem.keep (Object.parse scope text : Making n)

def run (mem : Memory) (calls : List Call) : Memory :=
  calls.foldl (fun mem c => (perform mem c).2) mem

end Memory

namespace Store

variable {store : Store} {i : Nat} {a : Automaton n}

theorem perform_change_none (h : store[i]? = none) (change : (n : Nat) → Change n) :
    perform store (.change i change) = (.error (.misused .badIndex), store) := by
  simp only [perform, h]

theorem perform_change_some (h : store[i]? = some ⟨n, a⟩) (change : (n : Nat) → Change n) :
    perform store (.change i change) = ((settle (Attempt.ofMisuse ((change n).apply a)) a).1,
      store.set i ⟨n, (settle (Attempt.ofMisuse ((change n).apply a) :
        Attempt ClaimError (Automaton n)) a).2⟩) := by
  simp only [perform, h]

theorem perform_translocate_none (h : store[i]? = none) (m : Nat) :
    perform store (.translocate i m) = (.error (.misused .badIndex), store) := by
  simp only [perform, h]

theorem perform_translocate_some (h : store[i]? = some ⟨n, a⟩) (m : Nat) :
    perform store (.translocate i m) = keep store (Attempt.ofMisuse (a.translocate m)) := by
  simp only [perform, h]

theorem keep_of_error {result : Attempt ClaimError (Automaton n)} {e : Failure ClaimError}
    (h : (keep store result).1 = .error e) : (keep store result).2 = store := by
  cases result with
  | ok a => cases h
  | error e' => rfl

theorem getElem?_keep (store : Store) (result : Attempt ClaimError (Automaton n)) {i : Nat}
    (hi : i < store.length) : (keep store result).2[i]? = store[i]? := by
  cases result with
  | ok a => exact List.getElem?_append_left hi
  | error e => rfl

/-- A call that fails changes no value. -/
theorem perform_of_error {c : Call} {e : Failure ClaimError} (h : (perform store c).1 = .error e) :
    (perform store c).2 = store := by
  cases c with
  | new n size => exact keep_of_error h
  | parse n scope text => exact keep_of_error h
  | translocate i m =>
    cases hi : store[i]? with
    | none => rw [perform_translocate_none hi]
    | some o =>
      rw [perform_translocate_some hi] at h ⊢
      exact keep_of_error h
  | change i change =>
    cases hi : store[i]? with
    | none => rw [perform_change_none hi]
    | some o =>
      rw [perform_change_some hi] at h ⊢
      cases hchange : (change o.1).apply o.2 with
      | ok a => simp [settle, hchange, Attempt.ofMisuse, Except.mapError] at h
      | error e' =>
        obtain ⟨hlt, rfl⟩ := List.getElem?_eq_some_iff.mp hi
        simp [settle, Attempt.ofMisuse, Except.mapError]

/-- A call leaves all values alone but the one it changes. -/
theorem getElem?_perform (store : Store) {c : Call} {i : Nat} (hi : i < store.length)
    (hc : c.changed ≠ some i) : (perform store c).2[i]? = store[i]? := by
  cases c with
  | new n size => exact getElem?_keep store _ hi
  | parse n scope text => exact getElem?_keep store _ hi
  | translocate j m =>
    cases hj : store[j]? with
    | none => rw [perform_translocate_none hj]
    | some o =>
      rw [perform_translocate_some hj]
      exact getElem?_keep store _ hi
  | change j change =>
    cases hj : store[j]? with
    | none => rw [perform_change_none hj]
    | some o =>
      rw [perform_change_some hj]
      exact List.getElem?_set_ne (fun h => hc (congrArg some h))

theorem getElem?_run {calls : List Call} {i : Nat} (hcalls : ∀ c ∈ calls, c.changed ≠ some i)
    {store : Store} (hi : i < store.length) : (run store calls)[i]? = store[i]? := by
  induction calls generalizing store with
  | nil => rfl
  | cons c calls ih =>
    rw [List.forall_mem_cons] at hcalls
    have hstep := getElem?_perform store hi hcalls.1
    have hlength : i < (perform store c).2.length := by
      rw [List.getElem?_eq_getElem hi] at hstep
      exact (List.getElem?_eq_some_iff.mp hstep).1
    exact (ih hcalls.2 hlength).trans hstep

end Store

namespace Object

def refs (o : Object n) : List Nat := [o.initial, o.accepting]

theorem Shows.of_sets {o : Object n} {sets sets' : Sets} {a : Automaton n} (h : o.Shows sets a)
    (hsets : ∀ r ∈ o.refs, ∀ s, sets[r]? = some s → sets'[r]? = some s) : o.Shows sets' a where
  lists := h.lists
  initial := hsets o.initial (by simp [refs]) _ h.initial
  accepting := hsets o.accepting (by simp [refs]) _ h.accepting
  apart := h.apart

theorem Shows.lt_length {o : Object n} {sets : Sets} {a : Automaton n} (h : o.Shows sets a) {r : Nat}
    (hr : r ∈ o.refs) : r < sets.length := by
  simp only [refs, List.mem_cons, List.not_mem_nil, or_false] at hr
  rcases hr with rfl | rfl
  · exact (List.getElem?_eq_some_iff.mp h.initial).1
  · exact (List.getElem?_eq_some_iff.mp h.accepting).1

end Object

def toTables (o : Σ n, Automaton n) : Σ n, Tables n := ⟨o.1, o.2.tables⟩

namespace Memory

open Object

/-- Every object is the automaton at its place, and no two objects share a set. -/
structure Holds (mem : Memory) (store : Store) : Prop where
  length : mem.objects.length = store.length
  shows : ∀ (i n : Nat) (o : Object n), mem.objects[i]? = some ⟨n, o⟩ →
    ∃ a, store[i]? = some ⟨n, a⟩ ∧ o.Shows mem.sets a
  apart : ∀ (i j : Nat) (o o' : Σ n, Object n), i ≠ j → mem.objects[i]? = some o →
    mem.objects[j]? = some o' → o.2.refs.Disjoint o'.2.refs

/-- The sets of all objects but one. -/
def others (mem : Memory) (i : Nat) : Set Nat :=
  {r | ∃ j ≠ i, ∃ o, mem.objects[j]? = some o ∧ r ∈ o.2.refs}

theorem getElem?_concat_eq_some {α : Type} {l : List α} {x y : α} {i : Nat}
    (h : (l ++ [x])[i]? = some y) : l[i]? = some y ∨ i = l.length ∧ y = x := by
  rcases Nat.lt_trichotomy i l.length with hi | rfl | hi
  · rw [List.getElem?_append_left hi] at h
    exact .inl h
  · rw [List.getElem?_concat_length] at h
    exact .inr ⟨rfl, (Option.some.inj h).symm⟩
  · have hnone : (l ++ [x])[i]? = none := List.getElem?_eq_none (by simp; omega)
    rw [hnone] at h
    cases h

theorem getElem?_set_eq_some {α : Type} {l : List α} {x y : α} {i j : Nat}
    (h : (l.set i x)[j]? = some y) : j = i ∧ y = x ∨ j ≠ i ∧ l[j]? = some y := by
  by_cases hj : j = i
  · subst hj
    have hlt : j < l.length := by simpa using (List.getElem?_eq_some_iff.mp h).1
    rw [List.getElem?_set_self hlt] at h
    exact .inl ⟨rfl, (Option.some.inj h).symm⟩
  · rw [List.getElem?_set_ne (Ne.symm hj)] at h
    exact .inr ⟨hj, h⟩

variable {mem : Memory} {store : Store}

section Perform

variable {i : Nat} {o : Object n}

theorem perform_change_none (h : mem.objects[i]? = none) (change : (n : Nat) → Change n) :
    mem.perform (.change i change) = (.error (.misused .badIndex), mem) := by
  simp only [perform, h]

theorem perform_change_some (h : mem.objects[i]? = some ⟨n, o⟩) (change : (n : Nat) → Change n) :
    mem.perform (.change i change) = (((change n).enact.run.run ⟨mem.sets, o⟩).1,
      ⟨((change n).enact.run.run ⟨mem.sets, o⟩).2.sets,
        mem.objects.set i ⟨n, ((change n).enact.run.run ⟨mem.sets, o⟩).2.object⟩⟩) := by
  simp only [perform, h]

theorem perform_translocate_none (h : mem.objects[i]? = none) (m : Nat) :
    mem.perform (.translocate i m) = (.error (.misused .badIndex), mem) := by
  simp only [perform, h]

theorem perform_translocate_some (h : mem.objects[i]? = some ⟨n, o⟩) (m : Nat) :
    mem.perform (.translocate i m) = mem.keep (o.translocate m) := by
  simp only [perform, h]

end Perform

namespace Holds

theorem blank : blank.Holds [] where
  length := rfl
  shows := by simp [Memory.blank]
  apart := by simp [Memory.blank]

theorem view_eq (h : mem.Holds store) : mem.view = store.map toTables := by
  apply List.ext_getElem?
  intro i
  unfold view
  rw [List.getElem?_map, List.getElem?_map]
  cases hi : mem.objects[i]? with
  | none =>
    have hlength : store[i]? = none := by
      rw [List.getElem?_eq_none_iff, ← h.length]
      exact List.getElem?_eq_none_iff.mp hi
    rw [hlength]
    rfl
  | some o =>
    obtain ⟨n, o⟩ := o
    obtain ⟨a, ha, hshows⟩ := h.shows i n o hi
    rw [ha]
    exact congrArg (fun t => some (⟨n, t⟩ : Σ n, Tables n)) hshows.tables_eq

theorem of_sets (h : mem.Holds store) {sets : Sets}
    (hsets : ∀ (r : Nat) (s : Finset Nat), mem.sets[r]? = some s → sets[r]? = some s) :
    Holds { mem with sets := sets } store where
  length := h.length
  shows := by
    intro i n o hi
    obtain ⟨a, ha, hshows⟩ := h.shows i n o hi
    exact ⟨a, ha, hshows.of_sets fun r _ => hsets r⟩
  apart := h.apart

theorem concat (h : mem.Holds store) {o : Object n} {a : Automaton n} (ho : o.Shows mem.sets a)
    (hnew : ∀ o' ∈ mem.objects, o.refs.Disjoint o'.2.refs) :
    Holds { mem with objects := mem.objects ++ [⟨n, o⟩] } (store ++ [⟨n, a⟩]) where
  length := by simp [h.length]
  shows := by
    intro i m o' hi
    rcases getElem?_concat_eq_some hi with hi | ⟨rfl, ho'⟩
    · obtain ⟨a', ha', hshows⟩ := h.shows i m o' hi
      refine ⟨a', ?_, hshows⟩
      rw [List.getElem?_append_left (List.getElem?_eq_some_iff.mp ha').1, ha']
    · cases ho'
      refine ⟨a, ?_, ho⟩
      rw [h.length, List.getElem?_concat_length]
  apart := by
    intro i j o₁ o₂ hij hi hj
    rcases getElem?_concat_eq_some hi with hi | ⟨rfl, rfl⟩ <;>
      rcases getElem?_concat_eq_some hj with hj | ⟨rfl, rfl⟩
    · exact h.apart i j o₁ o₂ hij hi hj
    · exact (hnew o₁ (List.mem_of_getElem? hi)).symm
    · exact hnew o₂ (List.mem_of_getElem? hj)
    · exact absurd rfl hij

/-- A new object has sets of its own, so that it is apart from all others. -/
theorem keep (h : mem.Holds store) {making : Making n} {result : Attempt ClaimError (Automaton n)}
    (hmakes : Makes making mem.sets result) :
    (mem.keep making).1 = (Store.keep store result).1 ∧
      (mem.keep making).2.Holds (Store.keep store result).2 := by
  obtain ⟨sets, hsets, hresult⟩ := hmakes
  have hold := h.of_sets hsets
  cases result with
  | error e =>
    have hkeep : mem.keep making = (.error e, { mem with sets := sets }) := by
      unfold Memory.keep
      rw [hresult]
    rw [hkeep]
    exact ⟨rfl, hold⟩
  | ok a =>
    obtain ⟨o, hrun, hshows, hinitial, haccepting⟩ := hresult
    have hkeep : mem.keep making = (.ok (), ⟨sets, mem.objects ++ [⟨n, o⟩]⟩) := by
      unfold Memory.keep
      rw [hrun]
    rw [hkeep]
    refine ⟨rfl, hold.concat hshows ?_⟩
    intro o' ho' r hr hr'
    obtain ⟨i, hi⟩ := List.getElem?_of_mem ho'
    obtain ⟨a', -, hshows'⟩ := h.shows i _ _ hi
    have hlt := hshows'.lt_length hr'
    simp only [refs, List.mem_cons, List.not_mem_nil, or_false] at hr
    omega

/-- What is done to one object leaves the others as they are. -/
theorem set (h : mem.Holds store) {i : Nat} {b : Bench n} {a : Automaton n} (hi : i < store.length)
    (hb : b.object.Shows b.sets a) (hspares : b.Spares (others mem i) mem.sets) :
    Holds ⟨b.sets, mem.objects.set i ⟨n, b.object⟩⟩ (store.set i ⟨n, a⟩) where
  length := by simp [h.length]
  shows := by
    intro j m o hj
    rcases getElem?_set_eq_some hj with ⟨rfl, ho⟩ | ⟨hne, hj⟩
    · cases ho
      exact ⟨a, List.getElem?_set_self hi, hb⟩
    · obtain ⟨a', ha', hshows⟩ := h.shows j m o hj
      refine ⟨a', ?_, hshows.of_sets fun r hr s hs => ?_⟩
      · rw [List.getElem?_set_ne hne.symm, ha']
      · obtain ⟨s', hs', hs''⟩ := hspares.sets r ⟨j, hne, _, hj, hr⟩
        rw [hs] at hs'
        cases hs'
        exact hs''
  apart := by
    have hapart : ∀ (j : Nat) (o : Σ n, Object n), j ≠ i → mem.objects[j]? = some o →
        b.object.refs.Disjoint o.2.refs := by
      intro j o hne hj r hr hr'
      have hmem : r ∈ others mem i := ⟨j, hne, o, hj, hr'⟩
      simp only [refs, List.mem_cons, List.not_mem_nil, or_false] at hr
      rcases hr with rfl | rfl
      · exact hspares.initial hmem
      · exact hspares.accepting hmem
    intro j k o₁ o₂ hjk hj hk
    rcases getElem?_set_eq_some hj with ⟨rfl, rfl⟩ | ⟨hne, hj'⟩ <;>
      rcases getElem?_set_eq_some hk with ⟨rfl, rfl⟩ | ⟨hne', hk'⟩
    · exact absurd rfl hjk
    · exact hapart k o₂ hne' hk'
    · exact (hapart j o₁ hne hj').symm
    · exact h.apart j k o₁ o₂ hjk hj' hk'

theorem spares (h : mem.Holds store) {i : Nat} {o : Object n} (hi : mem.objects[i]? = some ⟨n, o⟩) :
    Bench.Spares ⟨mem.sets, o⟩ (others mem i) mem.sets := by
  have hapart : ∀ r ∈ o.refs, r ∉ others mem i := by
    rintro r hr ⟨j, hne, o', hj, hr'⟩
    exact h.apart i j _ o' hne.symm hi hj hr hr'
  refine ⟨hapart _ (by simp [refs]), hapart _ (by simp [refs]), ?_⟩
  rintro r ⟨j, -, ⟨m, o'⟩, hj, hr⟩
  obtain ⟨a, -, hshows⟩ := h.shows j m o' hj
  have hget := List.getElem?_eq_getElem (hshows.lt_length hr)
  exact ⟨_, hget, hget⟩

/-- In place a call answers as it does for values, and does the same. -/
theorem perform (h : mem.Holds store) (c : Call) :
    (mem.perform c).1 = (Store.perform store c).1 ∧
      (mem.perform c).2.Holds (Store.perform store c).2 := by
  have hnone : ∀ {i : Nat}, mem.objects[i]? = none → store[i]? = none := by
    intro i hi
    rw [List.getElem?_eq_none_iff, ← h.length]
    exact List.getElem?_eq_none_iff.mp hi
  cases c with
  | new n size => exact h.keep (makes_new n size mem.sets)
  | parse n scope text => exact h.keep (makes_parse scope text mem.sets)
  | translocate i m =>
    cases hi : mem.objects[i]? with
    | none =>
      rw [perform_translocate_none hi, Store.perform_translocate_none (hnone hi)]
      exact ⟨rfl, h⟩
    | some o =>
      obtain ⟨n, o⟩ := o
      obtain ⟨a, ha, hshows⟩ := h.shows i n o hi
      rw [perform_translocate_some hi, Store.perform_translocate_some ha]
      exact h.keep (makes_translocate hshows m)
  | change i change =>
    cases hi : mem.objects[i]? with
    | none =>
      rw [perform_change_none hi, Store.perform_change_none (hnone hi)]
      exact ⟨rfl, h⟩
    | some o =>
      obtain ⟨n, o⟩ := o
      obtain ⟨a, ha, hshows⟩ := h.shows i n o hi
      obtain ⟨b, hrun, hb, hspares⟩ :=
        (change n).settles_enact a (others mem i) mem.sets ⟨mem.sets, o⟩ hshows (h.spares hi)
      rw [perform_change_some hi, Store.perform_change_some ha, hrun]
      exact ⟨rfl, h.set (List.getElem?_eq_some_iff.mp ha).1 hb hspares⟩

theorem run (h : mem.Holds store) (calls : List Call) :
    (mem.run calls).Holds (Store.run store calls) := by
  induction calls generalizing mem store with
  | nil => exact h
  | cons c calls ih => exact ih (h.perform c).2

end Holds
end Memory

open Memory

/-- After every session the objects in memory are the automata as values. The forward and the backward
lists tell of the same edges, with states that are there. The next call answers as it does for values
and does the same; if it fails then all automata are as before. Copying an automaton succeeds exactly if
all its labels fit, and gives a copy. An automaton stays as it is while others are changed, its copies
and what it was copied from among them, since no set belongs to two of them. -/
theorem session_mirrored (calls : List Call) {store : Store} (hstore : Store.run [] calls = store)
    {mem : Memory} (hmem : blank.run calls = mem) :
    mem.view = store.map toTables ∧
    (∀ o ∈ mem.view, o.2.Mirrored) ∧
    (∀ c, (mem.perform c).1 = (Store.perform store c).1 ∧
      (mem.perform c).2.view = (Store.perform store c).2.map toTables ∧
      ∀ e, (mem.perform c).1 = .error e → (mem.perform c).2.view = mem.view) ∧
    (∀ (i n : Nat) (t : Tables n) (m : Nat), mem.view[i]? = some ⟨n, t⟩ →
      ((mem.perform (.translocate i m)).1 = .ok () ↔
        ∀ e ∈ t.forwardEdges, e.2.2.DependsOnly (· < m)) ∧
      ((mem.perform (.translocate i m)).1 = .ok () → ∃ copy : Tables m,
        (mem.perform (.translocate i m)).2.view = mem.view ++ [⟨m, copy⟩] ∧ t.IsCopy copy)) ∧
    ∀ (i : Nat) (more : List Call), i < mem.view.length → (∀ c ∈ more, c.changed ≠ some i) →
      (mem.run more).view[i]? = mem.view[i]? := by
  have hholds : mem.Holds store := by
    rw [← hstore, ← hmem]
    exact Holds.blank.run calls
  have hview := hholds.view_eq
  have hnext : ∀ c, (mem.perform c).1 = (Store.perform store c).1 ∧
      (mem.perform c).2.view = (Store.perform store c).2.map toTables := by
    intro c
    obtain ⟨hanswer, hafter⟩ := hholds.perform c
    exact ⟨hanswer, hafter.view_eq⟩
  refine ⟨hview, fun o ho => ?_, fun c => ⟨(hnext c).1, (hnext c).2, fun e he => ?_⟩,
    fun i n t m hi => ?_, fun i more hi hmore => ?_⟩
  · rw [hview] at ho
    obtain ⟨o, -, rfl⟩ := List.mem_map.mp ho
    exact Tables.mirrored_tables o.2
  · rw [(hnext c).1] at he
    rw [(hnext c).2, Store.perform_of_error he, hview]
  · obtain ⟨a, ha, rfl⟩ : ∃ a : Automaton n, store[i]? = some ⟨n, a⟩ ∧ a.tables = t := by
      rw [hview, List.getElem?_map] at hi
      obtain ⟨⟨n', a⟩, ha, h⟩ := Option.map_eq_some_iff.mp hi
      cases h
      exact ⟨a, ha, rfl⟩
    rw [(hnext _).1, (hnext _).2, Store.perform_translocate_some ha, hview,
      ← Tables.exists_translocate_iff]
    cases hcopy : a.translocate m with
    | error e => refine ⟨⟨fun h => ?_, fun ⟨b, h⟩ => ?_⟩, fun h => ?_⟩ <;> cases h
    | ok b =>
      refine ⟨⟨fun _ => ⟨b, rfl⟩, fun _ => rfl⟩, fun _ => ⟨b.tables, ?_, Tables.isCopy_tables hcopy⟩⟩
      exact List.map_append
  · have hlength : i < store.length := by simpa [hview] using hi
    rw [(hholds.run more).view_eq, hview, List.getElem?_map, List.getElem?_map,
      Store.getElem?_run hmore hlength]

/-- Two states with a loop and an edge that is there twice, and calls for a third state that fail. -/
def pair : List Call :=
  [.new 1 2, .change 0 fun _ => .addEdge 0 1 (.const true),
    .change 0 fun _ => .addEdge 1 2 (.const true), .change 0 fun _ => .addEdge 1 1 (.const true),
    .change 0 fun _ => .addEdge 0 1 (.const true), .change 0 fun _ => .addInitial 0,
    .change 0 fun _ => .addAccepting 2]

def pairTables : Tables 1 where
  forward := [[(1, .const true), (1, .const true)], [(1, .const true)]]
  backward := [[], [(0, .const true), (1, .const true), (0, .const true)]]
  initial := insert 0 ∅
  accepting := ∅

/-- The calls that fail leave nothing behind. The automaton can be copied, and states of the copy can be
made accepting without a change of the original. -/
theorem session_pair : (blank.run pair).view = [⟨1, pairTables⟩] ∧ pairTables.Mirrored ∧
    (∃ copy : Tables 3, ((blank.run pair).perform (.translocate 0 3)).2.view =
      [⟨1, pairTables⟩, ⟨3, copy⟩] ∧ pairTables.IsCopy copy) ∧
    ((blank.run pair).run [.translocate 0 3, .change 1 fun _ => .addAccepting 0]).view[0]? =
      some ⟨1, pairTables⟩ := by
  have hview : (blank.run pair).view = [⟨1, pairTables⟩] := rfl
  obtain ⟨-, hmirrored, -, hcopy, hothers⟩ := session_mirrored pair rfl rfl
  obtain ⟨hfits, hgives⟩ := hcopy 0 1 pairTables 3 (congrArg (·[0]?) hview)
  have hlabels : ∀ e ∈ pairTables.forwardEdges, e.2.2.DependsOnly (· < 3) := by
    have hedges : pairTables.forwardEdges =
        [(0, 1, .const true), (0, 1, .const true), (1, 1, .const true)] := rfl
    rw [hedges]
    simp only [List.forall_mem_cons, List.not_mem_nil, false_implies, implies_true, and_true]
    exact ⟨.const true, .const true, .const true⟩
  have hothers := hothers 0 [.translocate 0 3, .change 1 fun _ => .addAccepting 0]
    (by rw [hview]; exact Nat.zero_lt_one) (by simp [Call.changed])
  rw [hview] at hothers hgives hmirrored
  exact ⟨hview, hmirrored _ List.mem_cons_self, hgives (hfits.mpr hlabels), hothers⟩

end SymbolicLtl.Automaton
