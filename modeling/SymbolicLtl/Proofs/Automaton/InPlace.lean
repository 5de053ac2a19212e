import Mathlib.Data.Set.Basic
import SymbolicLtl.Proofs.Automaton.Adjacency

/-!
Automata that are changed in place. An object has its lists for itself and refers to sets of states that
are kept apart from it, so two objects could refer to the same set. Whatever is done to an object is
done to the automaton that it shows, and the sets of all others stay as they are.
-/
namespace SymbolicLtl.Automaton

/-- The sets of states in memory. A reference is the place of a set. -/
abbrev Sets := List (Finset Nat)

/-- An automaton in memory, with references to the sets of its initial and of its accepting states. -/
structure Object (n : Nat) extends Adjacency n where
  initial : Nat
  accepting : Nat

structure Bench (n : Nat) where
  sets : Sets
  object : Object n

/-- Work in place. When it fails, what it did before that is left behind. -/
abbrev InPlace (n : Nat) := ExceptT (Failure ClaimError) (StateM (Bench n))

def InPlace.ofMisuse {n : Nat} {α : Type} (r : Except Misuse α) : InPlace n α :=
  liftM (Attempt.ofMisuse r : Attempt ClaimError α)

abbrev Making (n : Nat) := ExceptT (Failure ClaimError) (StateM Sets) (Object n)

namespace Object

variable {n : Nat}

/-- What is found at an object and behind its references. -/
def tables (o : Object n) (sets : Sets) : Tables n :=
  { o.toAdjacency with initial := sets.getD o.initial ∅, accepting := sets.getD o.accepting ∅ }

def checkState (q : Int) : InPlace n Nat := do
  let size := (← get).object.forward.length
  if 0 ≤ q ∧ q < size then return q.toNat else throw (.misused (.stateOutOfRange q size))

def putEdge (s t : Nat) (label : Diagram n) : InPlace n Unit := do
  let forward ← InPlace.ofMisuse (Adjacency.append (← get).object.forward s (t, label))
  modify fun b => { b with object.forward := forward }
  let backward ← InPlace.ofMisuse (Adjacency.append (← get).object.backward t (s, label))
  modify fun b => { b with object.backward := backward }

def addEdge (source target : Int) (label : Diagram n) : InPlace n Unit := do
  let s ← checkState source
  let t ← checkState target
  putEdge s t label

def addInitial (q : Int) : InPlace n Unit := do
  let q ← checkState q
  modify fun b => { b with sets := b.sets.modify b.object.initial (insert q) }

def addAccepting (q : Int) : InPlace n Unit := do
  let q ← checkState q
  modify fun b => { b with sets := b.sets.modify b.object.accepting (insert q) }

/-- Lets the initial states be a new set, a copy of the one behind a reference. -/
def cloneInitial (r : Nat) : InPlace n Unit :=
  modify fun b =>
    { sets := b.sets ++ [b.sets.getD r ∅], object := { b.object with initial := b.sets.length } }

def cloneAccepting (r : Nat) : InPlace n Unit :=
  modify fun b =>
    { sets := b.sets ++ [b.sets.getD r ∅], object := { b.object with accepting := b.sets.length } }

/-- Makes an object without edges, with two new sets, and works on it. -/
def make (size : Nat) (work : InPlace n Unit) : Making n := do
  let sets ← get
  let object : Object n :=
    { Adjacency.empty n size with initial := sets.length, accepting := sets.length + 1 }
  let (outcome, b) := work.run.run ⟨sets ++ [∅, ∅], object⟩
  set b.sets
  liftM (outcome.map fun _ => b.object)

def new (n : Nat) (size : Int) : Making n :=
  match listLength? 24 size with
  | some size => make size (pure ())
  | none => throw (.misused .badIndex)

def addCopies (m : Nat) (edges : List (Nat × Nat × Diagram n)) : InPlace m Unit :=
  edges.forM fun (source, target, d) => do
    let label ← InPlace.ofMisuse (d.translocate m)
    addEdge source target label

/-- A new object with the edges of the forward lists, and with copies of both sets. -/
def translocate (o : Object n) (m : Nat) : Making m :=
  make o.forward.length do
    addCopies m o.forwardEdges
    cloneInitial o.initial
    cloneAccepting o.accepting

open NeverClaim

def mark {k : Nat} (state : String × Fin k) : InPlace n Unit := do
  if isInitialName state.1 then addInitial state.2.val
  if isAcceptingName state.1 then addAccepting state.2.val

/-- Marks all states. Without an initial state the first one is initial. -/
def declare (names : List String) : InPlace n Unit := do
  (names.zip (List.finRange names.length)).forM mark
  let b ← get
  if b.sets.getD b.object.initial ∅ = ∅ then addInitial 0

def addLine (scope : Scope) (names : List String) (current : Option Nat) (text : List Char) :
    InPlace n (Option Nat) := do
  match ← liftM (readLine scope names text current) with
  | (none, next) => return next
  | (some (q, t, d), next) => do
    addEdge q t d
    return next

def addLines (scope : Scope) (lines : List (List Char)) (names : List String) : InPlace n Unit := do
  declare names
  let _ ← lines.foldlM (addLine scope names) none

def parse (scope : Scope) (text : String) : Making n := do
  let (lines, names) ← liftM (outline text)
  make names.length (addLines scope lines names)

/-- The object is an automaton, as its lists and sets tell. The two sets are not the same one. -/
structure Shows (o : Object n) (sets : Sets) (a : Automaton n) : Prop where
  lists : o.toAdjacency = a.tables.toAdjacency
  initial : sets[o.initial]? = some a.tables.initial
  accepting : sets[o.accepting]? = some a.tables.accepting
  apart : o.initial ≠ o.accepting

theorem Shows.tables_eq {o : Object n} {sets : Sets} {a : Automaton n} (h : o.Shows sets a) :
    o.tables sets = a.tables := by
  unfold tables
  rw [List.getD_eq_getElem?_getD, List.getD_eq_getElem?_getD, h.lists, h.initial, h.accepting]
  rfl

end Object

/-- The outcome of a change that gives a new value, or fails and keeps the old one. -/
def settle {ε α : Type} (result : Except ε α) (old : α) : Except ε Unit × α :=
  match result with
  | .ok new => (.ok (), new)
  | .error e => (.error e, old)

namespace Bench

variable {n : Nat} {others : Set Nat} {before : Sets}

/-- The object has no set of others, and these sets are there as before. -/
structure Spares (b : Bench n) (others : Set Nat) (before : Sets) : Prop where
  initial : b.object.initial ∉ others
  accepting : b.object.accepting ∉ others
  sets : ∀ r ∈ others, ∃ s, before[r]? = some s ∧ b.sets[r]? = some s

theorem getElem?_modify_of_ne {sets : Sets} {r r' : Nat} (h : r ≠ r') (f : Finset Nat → Finset Nat) :
    (sets.modify r f)[r']? = sets[r']? := by
  simp [h]

theorem getElem?_modify_self {sets : Sets} {r : Nat} {s : Finset Nat} (h : sets[r]? = some s)
    (f : Finset Nat → Finset Nat) : (sets.modify r f)[r]? = some (f s) := by
  simp [h]

theorem getElem?_append_of_some {sets : Sets} {r : Nat} {s : Finset Nat} (h : sets[r]? = some s)
    (more : Sets) : (sets ++ more)[r]? = some s := by
  rw [List.getElem?_append_left (List.getElem?_eq_some_iff.mp h).1, h]

namespace Spares

variable {b : Bench n}

theorem getElem?_eq (h : b.Spares others before) {r : Nat} {s : Finset Nat} (hr : r ∈ others)
    (hs : before[r]? = some s) : b.sets[r]? = some s := by
  obtain ⟨s', hbefore, hs'⟩ := h.sets r hr
  rw [hs', ← hbefore, hs]

/-- A set that is none of others can be changed. -/
theorem modify (h : b.Spares others before) {r : Nat} (hr : r ∉ others)
    (f : Finset Nat → Finset Nat) :
    Spares { b with sets := b.sets.modify r f } others before where
  initial := h.initial
  accepting := h.accepting
  sets := by
    intro r' hr'
    have hne : r ≠ r' := fun heq => hr (heq ▸ hr')
    rw [getElem?_modify_of_ne hne]
    exact h.sets r' hr'

theorem append (h : b.Spares others before) (more : Sets) :
    ∀ r ∈ others, ∃ s, before[r]? = some s ∧ (b.sets ++ more)[r]? = some s := by
  intro r hr
  obtain ⟨s, hbefore, hs⟩ := h.sets r hr
  exact ⟨s, hbefore, getElem?_append_of_some hs more⟩

/-- A new set is none of others. -/
theorem length_notMem (h : b.Spares others before) : b.sets.length ∉ others := by
  intro hlength
  obtain ⟨s, -, hs⟩ := h.sets _ hlength
  have hlt := (List.getElem?_eq_some_iff.mp hs).1
  omega

end Spares
end Bench

namespace InPlace

variable {n : Nat} {α β : Type}

/-- Work that takes one automaton to the other, with a result, and spares the sets of others. -/
def Does (others : Set Nat) (before : Sets) (work : InPlace n α) (a : Automaton n)
    (result : Attempt ClaimError α) (a' : Automaton n) : Prop :=
  ∀ b : Bench n, b.object.Shows b.sets a → b.Spares others before →
    ∃ b', work.run.run b = (result, b') ∧ b'.object.Shows b'.sets a' ∧ b'.Spares others before

/-- Work that does to objects what a computation does with values. When it fails, it leaves behind some
automaton. -/
def Follows (others : Set Nat) (before : Sets) (work : InPlace n α) (a : Automaton n)
    (result : Attempt ClaimError (Automaton n × α)) : Prop :=
  match result with
  | .ok (a', x) => Does others before work a (.ok x) a'
  | .error e => ∃ a', Does others before work a (.error e) a'

/-- A change. It gives another automaton, or fails and leaves behind the same one. -/
def Settles (others : Set Nat) (before : Sets) (work : InPlace n Unit) (a : Automaton n)
    (result : Attempt ClaimError (Automaton n)) : Prop :=
  Does others before work a (settle result a).1 (settle result a).2

variable {others : Set Nat} {before : Sets} {a a' a'' : Automaton n}

namespace Does

theorem pure (x : α) : Does others before (pure x) a (.ok x) a :=
  fun b hb hspares => ⟨b, rfl, hb, hspares⟩

theorem lift (x : Attempt ClaimError α) : Does others before (liftM x) a x a :=
  fun b hb hspares => ⟨b, Attempt.run_liftM x b, hb, hspares⟩

theorem bind {work : InPlace n α} {f : α → InPlace n β} {x : α} {result : Attempt ClaimError β}
    (h : Does others before work a (.ok x) a') (hf : Does others before (f x) a' result a'') :
    Does others before (work >>= f) a result a'' := by
  intro b hb hspares
  obtain ⟨b', hrun, hb', hspares'⟩ := h b hb hspares
  rw [Attempt.run_bind_ok hrun]
  exact hf b' hb' hspares'

theorem bind_error {work : InPlace n α} {e : Failure ClaimError}
    (h : Does others before work a (.error e) a') (f : α → InPlace n β) :
    Does others before (work >>= f) a (.error e) a' := by
  intro b hb hspares
  obtain ⟨b', hrun, hb', hspares'⟩ := h b hb hspares
  rw [Attempt.run_bind_error hrun]
  exact ⟨b', rfl, hb', hspares'⟩

/-- Nothing fails while all of a list is done. -/
theorem forM {f : α → InPlace n Unit} (build : List α → Automaton n) (l : List α)
    (h : ∀ xs x, Does others before (f x) (build xs) (.ok ()) (build (xs ++ [x]))) (xs : List α) :
    Does others before (l.forM f) (build xs) (.ok ()) (build (xs ++ l)) := by
  induction l generalizing xs with
  | nil =>
    rw [List.append_nil]
    exact .pure ()
  | cons x l ih =>
    have hrest := ih (xs ++ [x])
    rw [List.append_assoc] at hrest
    exact (h xs x).bind hrest

end Does

theorem Does.bind_follows {work : InPlace n α} {f : α → InPlace n β} {x : α}
    {result : Attempt ClaimError (Automaton n × β)} (h : Does others before work a (.ok x) a')
    (hf : Follows others before (f x) a' result) : Follows others before (work >>= f) a result := by
  cases result with
  | error e =>
    obtain ⟨a'', hf⟩ := hf
    exact ⟨a'', h.bind hf⟩
  | ok q => exact h.bind hf

/-- After a change that succeeds the rest goes on with the new automaton. -/
theorem Settles.bind_follows {work : InPlace n Unit} {f : Unit → InPlace n β}
    {result : Attempt ClaimError (Automaton n)}
    {g : Automaton n → Attempt ClaimError (Automaton n × β)}
    (h : Settles others before work a result)
    (hf : ∀ a', Follows others before (f ()) a' (g a')) :
    Follows others before (work >>= f) a (result >>= g) := by
  cases result with
  | error e => exact ⟨a, Does.bind_error h f⟩
  | ok a' => exact Does.bind_follows h (hf a')

namespace Follows

theorem lift_bind {x : Attempt ClaimError α} {f : α → InPlace n β}
    {g : α → Attempt ClaimError (Automaton n × β)}
    (hf : ∀ y, Follows others before (f y) a (g y)) :
    Follows others before (liftM x >>= f) a (x >>= g) := by
  have hx : Does others before (liftM x) a x a := .lift x
  cases x with
  | error e => exact ⟨a, hx.bind_error f⟩
  | ok y => exact hx.bind_follows (hf y)

theorem bind {work : InPlace n α} {f : α → InPlace n β}
    {result : Attempt ClaimError (Automaton n × α)}
    {g : Automaton n × α → Attempt ClaimError (Automaton n × β)}
    (h : Follows others before work a result)
    (hf : ∀ a' x, Follows others before (f x) a' (g (a', x))) :
    Follows others before (work >>= f) a (result >>= g) := by
  cases result with
  | error e =>
    obtain ⟨a', h⟩ := h
    exact ⟨a', h.bind_error f⟩
  | ok p => exact Does.bind_follows h (hf p.1 p.2)

theorem foldlM {γ : Type} {f : β → γ → InPlace n β}
    {g : Automaton n × β → γ → Attempt ClaimError (Automaton n × β)}
    (h : ∀ a x y, Follows others before (f x y) a (g (a, x) y)) (l : List γ) (x : β) :
    Follows others before (l.foldlM f x) a (l.foldlM g (a, x)) := by
  induction l generalizing x a with
  | nil => exact Does.pure x
  | cons y l ih =>
    rw [List.foldlM_cons, List.foldlM_cons]
    exact (h a x y).bind fun a' x' => ih x'

end Follows
end InPlace

namespace Object

open InPlace Bench

variable {n : Nat} {others : Set Nat} {before : Sets} {a : Automaton n}

theorem does_checkState (q : Int) :
    Does others before (checkState q) a (Attempt.ofMisuse ((a.checkState q).map Fin.val)) a := by
  intro b hb hspares
  refine ⟨b, ?_, hb, hspares⟩
  have hsize : b.object.forward.length = a.size := by
    rw [hb.lists]
    exact length_forward_tables a
  have hrun : (checkState q : InPlace n Nat).run.run b =
      (if 0 ≤ q ∧ q < b.object.forward.length then pure q.toNat
        else throw (.misused (.stateOutOfRange q b.object.forward.length)) :
          InPlace n Nat).run.run b := rfl
  rw [hrun, hsize]
  unfold Automaton.checkState
  by_cases hq : 0 ≤ q ∧ q < a.size
  · rw [if_pos hq, dif_pos hq]
    rfl
  · rw [if_neg hq, dif_neg hq]
    rfl

/-- What is done to a state is done to none if the state is not there. -/
theorem settles_checkState_bind {f : Nat → InPlace n Unit} {g : Fin a.size → Automaton n}
    (h : ∀ q, Does others before (f q.val) a (.ok ()) (g q)) (q : Int) :
    Settles others before (checkState q >>= f) a
      (Attempt.ofMisuse (a.checkState q >>= fun q => pure (g q))) := by
  have hstate : Does others before (checkState q) a _ a := does_checkState q
  cases hq : a.checkState q with
  | error e =>
    rw [hq] at hstate
    exact hstate.bind_error f
  | ok q =>
    rw [hq] at hstate
    exact hstate.bind (h q)

theorem run_get (b : Bench n) : (get : InPlace n (Bench n)).run.run b = (.ok b, b) := rfl

theorem run_modify (f : Bench n → Bench n) (b : Bench n) :
    (modify f : InPlace n Unit).run.run b = (.ok (), f b) := rfl

theorem run_ofMisuse {α : Type} {r : Except Misuse α} {x : α} (h : r = .ok x) (b : Bench n) :
    (InPlace.ofMisuse r : InPlace n α).run.run b = (.ok x, b) := by
  subst h
  rfl

theorem does_get_bind {α : Type} {f : Bench n → InPlace n α} {result : Attempt ClaimError α}
    {a' : Automaton n}
    (h : ∀ b : Bench n, b.object.Shows b.sets a → Does others before (f b) a result a') :
    Does others before (get >>= f) a result a' := by
  intro b hb hspares
  rw [Attempt.run_bind_ok (run_get b)]
  exact h b hb b hb hspares

theorem does_putEdge (e : Edge n a.size) :
    Does others before (putEdge e.source.val e.target.val e.label) a (.ok ())
      { a with edges := a.edges ++ [e] } := by
  intro b hb hspares
  have hforward := Adjacency.append_forward a e
  have hbackward := Adjacency.append_backward a e
  rw [← hb.lists] at hforward hbackward
  refine ⟨⟨b.sets, { ({ a with edges := a.edges ++ [e] } : Automaton n).tables.toAdjacency with
    initial := b.object.initial, accepting := b.object.accepting }⟩, ?_,
    ⟨rfl, hb.initial, hb.accepting, hb.apart⟩, hspares.initial, hspares.accepting, hspares.sets⟩
  unfold putEdge
  -- The first list is changed before the second one is looked for.
  rw [Attempt.run_bind_ok (run_get b), Attempt.run_bind_ok (run_ofMisuse hforward b),
    Attempt.run_bind_ok (run_modify _ b), Attempt.run_bind_ok (run_get _),
    Attempt.run_bind_ok (run_ofMisuse hbackward _), run_modify]

theorem settles_addEdge (source target : Int) (label : Diagram n) :
    Settles others before (addEdge source target label) a
      (Attempt.ofMisuse (a.addEdge source target label)) := by
  have hsource : Does others before (checkState source) a _ a := does_checkState source
  have htarget : Does others before (checkState target) a _ a := does_checkState target
  unfold addEdge Automaton.addEdge
  cases hs : a.checkState source with
  | error e =>
    rw [hs] at hsource
    exact hsource.bind_error _
  | ok s =>
    rw [hs] at hsource
    cases ht : a.checkState target with
    | error e =>
      rw [ht] at htarget
      exact hsource.bind (htarget.bind_error _)
    | ok t =>
      rw [ht] at htarget
      exact hsource.bind (htarget.bind (does_putEdge ⟨s, t, label⟩))

theorem insert_toFinset {k : Nat} (l : List (Fin k)) (q : Fin k) :
    insert q.val (l.map Fin.val).toFinset = ((l ++ [q]).map Fin.val).toFinset := by
  ext r
  simp

theorem settles_addInitial (q : Int) :
    Settles others before (addInitial q) a (Attempt.ofMisuse (a.addInitial q)) := by
  refine settles_checkState_bind (fun q b hb hspares => ?_) q
  refine ⟨_, run_modify _ b, ⟨hb.lists, ?_, ?_, hb.apart⟩, hspares.modify hspares.initial _⟩
  · rw [getElem?_modify_self hb.initial]
    exact congrArg some (insert_toFinset a.initial q)
  · rw [getElem?_modify_of_ne hb.apart]
    exact hb.accepting

theorem settles_addAccepting (q : Int) :
    Settles others before (addAccepting q) a (Attempt.ofMisuse (a.addAccepting q)) := by
  refine settles_checkState_bind (fun q b hb hspares => ?_) q
  refine ⟨_, run_modify _ b, ⟨hb.lists, ?_, ?_, hb.apart⟩, hspares.modify hspares.accepting _⟩
  · rw [getElem?_modify_of_ne hb.apart.symm]
    exact hb.initial
  · rw [getElem?_modify_self hb.accepting]
    exact congrArg some (insert_toFinset a.accepting q)

section Clone

variable {k : Nat} {edges : List (Edge n k)} {initial accepting states : List (Fin k)} {r : Nat}

theorem does_cloneInitial (hr : r ∈ others)
    (hset : before[r]? = some (states.map Fin.val).toFinset) :
    Does others before (cloneInitial r) ⟨k, edges, initial, accepting⟩ (.ok ())
      ⟨k, edges, states, accepting⟩ := by
  intro b hb hspares
  have hlt := (List.getElem?_eq_some_iff.mp hb.accepting).1
  refine ⟨_, run_modify _ b, ⟨hb.lists, ?_, getElem?_append_of_some hb.accepting _, Ne.symm hlt.ne⟩,
    hspares.length_notMem, hspares.accepting, hspares.append _⟩
  rw [List.getElem?_concat_length, List.getD_eq_getElem?_getD, hspares.getElem?_eq hr hset]
  rfl

theorem does_cloneAccepting (hr : r ∈ others)
    (hset : before[r]? = some (states.map Fin.val).toFinset) :
    Does others before (cloneAccepting r) ⟨k, edges, initial, accepting⟩ (.ok ())
      ⟨k, edges, initial, states⟩ := by
  intro b hb hspares
  have hlt := (List.getElem?_eq_some_iff.mp hb.initial).1
  refine ⟨_, run_modify _ b, ⟨hb.lists, getElem?_append_of_some hb.initial _, ?_, hlt.ne⟩,
    hspares.initial, hspares.length_notMem, hspares.append _⟩
  rw [List.getElem?_concat_length, List.getD_eq_getElem?_getD, hspares.getElem?_eq hr hset]
  rfl

end Clone

/-- Gives an object for an automaton, or none for the same reason. The sets that were there stay as they
are, and the new object has none of them. -/
def Makes (making : Making n) (sets : Sets) (result : Attempt ClaimError (Automaton n)) : Prop :=
  ∃ sets' : Sets, (∀ (r : Nat) (s : Finset Nat), sets[r]? = some s → sets'[r]? = some s) ∧
    match result with
    | .ok a => ∃ o, making.run.run sets = (.ok o, sets') ∧ o.Shows sets' a ∧
        sets.length ≤ o.initial ∧ sets.length ≤ o.accepting
    | .error e => making.run.run sets = (.error e, sets')

theorem lists_ofSize (n size : Nat) :
    (ofSize n size).tables.toAdjacency = Adjacency.empty n size := by
  simp [Automaton.tables, ofSize, outgoing, incoming, Adjacency.empty, List.map_const']

theorem makes_of_does {size : Nat} {work : InPlace n Unit} {sets : Sets}
    {result : Attempt ClaimError Unit}
    (h : Does {r | r < sets.length} sets work (ofSize n size) result a) :
    Makes (make size work) sets (result.map fun _ => a) := by
  have hsets : ∀ r < sets.length, ∃ s, sets[r]? = some s ∧ (sets ++ [∅, ∅])[r]? = some s := by
    intro r hr
    have hget := List.getElem?_eq_getElem hr
    exact ⟨_, hget, getElem?_append_of_some hget _⟩
  obtain ⟨b, hrun, hb, hspares⟩ := h
    ⟨sets ++ [∅, ∅], { Adjacency.empty n size with
      initial := sets.length, accepting := sets.length + 1 }⟩
    ⟨(lists_ofSize n size).symm, by simp [Automaton.tables, ofSize],
      by simp [Automaton.tables, ofSize], by simp⟩
    ⟨by simp, by simp, hsets⟩
  have hmake : (make size work).run.run sets = (result.map fun _ => b.object, b.sets) := by
    have hget : (get : ExceptT (Failure ClaimError) (StateM Sets) Sets).run.run sets =
        (.ok sets, sets) := rfl
    have hset : (set b.sets : ExceptT (Failure ClaimError) (StateM Sets) Unit).run.run sets =
        (.ok (), b.sets) := rfl
    unfold make
    rw [Attempt.run_bind_ok hget]
    dsimp only
    rw [hrun]
    dsimp only
    rw [Attempt.run_bind_ok hset, Attempt.run_liftM]
  refine ⟨b.sets, fun r s hr => ?_, ?_⟩
  · exact hspares.getElem?_eq (List.getElem?_eq_some_iff.mp hr).1 hr
  · cases result with
    | error e => exact hmake
    | ok x => exact ⟨b.object, hmake, hb, not_lt.mp hspares.initial, not_lt.mp hspares.accepting⟩

theorem makes_make {size : Nat} {work : InPlace n Unit} {sets : Sets}
    {result : Attempt ClaimError (Automaton n × Unit)}
    (h : Follows {r | r < sets.length} sets work (ofSize n size) result) :
    Makes (make size work) sets (result >>= fun p => .ok p.1) := by
  cases result with
  | error e =>
    obtain ⟨a, h⟩ := h
    exact makes_of_does h
  | ok p => exact makes_of_does h

theorem makes_lift_bind {α : Type} {x : Attempt ClaimError α} {f : α → Making n}
    {g : α → Attempt ClaimError (Automaton n)} {sets : Sets}
    (h : ∀ y, x = .ok y → Makes (f y) sets (g y)) : Makes (liftM x >>= f) sets (x >>= g) := by
  cases x with
  | error e => exact ⟨sets, fun r s hr => hr, rfl⟩
  | ok y => exact h y rfl

theorem makes_new (n : Nat) (size : Int) (sets : Sets) :
    Makes (new n size) sets (Attempt.ofMisuse (Automaton.new n size)) := by
  unfold new Automaton.new
  cases listLength? 24 size with
  | none => exact ⟨sets, fun r s h => h, rfl⟩
  | some size => exact makes_of_does (.pure ())

theorem does_addEdge {k : Nat} (edges : List (Edge n k)) (initial accepting : List (Fin k))
    (e : Edge n k) :
    Does others before (addEdge e.source.val e.target.val e.label) ⟨k, edges, initial, accepting⟩
      (.ok ()) ⟨k, edges ++ [e], initial, accepting⟩ := by
  have hadd : Settles others before _ _ _ :=
    settles_addEdge (a := ⟨k, edges, initial, accepting⟩) e.source.val e.target.val e.label
  rw [addEdge_eq_ok ⟨k, edges, initial, accepting⟩ e.source.isLt e.target.isLt] at hadd
  exact hadd

/-- Edges are carried over one by one, up to the first whose label does not fit. -/
theorem follows_addCopies {m k : Nat} (initial accepting : List (Fin k)) (l : List (Edge n k))
    (edges : List (Edge m k)) :
    Follows others before (addCopies m (l.map Edge.triple)) ⟨k, edges, initial, accepting⟩
      (Attempt.ofMisuse (l.mapM fun e => e.translocate m) >>= fun copies =>
        .ok (⟨k, edges ++ copies, initial, accepting⟩, ())) := by
  induction l generalizing edges with
  | nil =>
    rw [List.mapM_nil]
    change Does others before _ _ _ ⟨k, edges ++ [], initial, accepting⟩
    rw [List.append_nil]
    exact .pure ()
  | cons x l ih =>
    have hsplit : addCopies m ((x :: l).map Edge.triple) =
        (InPlace.ofMisuse (x.label.translocate m) >>= fun label =>
          addEdge x.source.val x.target.val label) >>= fun _ =>
            addCopies m (l.map Edge.triple) := rfl
    have hresult : (Attempt.ofMisuse ((x :: l).mapM fun e => e.translocate m) >>= fun copies =>
        .ok (⟨k, edges ++ copies, initial, accepting⟩, ()) : Attempt ClaimError (Automaton m × Unit)) =
        Attempt.ofMisuse (x.label.translocate m) >>= fun label =>
          Attempt.ofMisuse (l.mapM fun e => e.translocate m) >>= fun copies =>
            .ok (⟨k, edges ++ [⟨x.source, x.target, label⟩] ++ copies, initial, accepting⟩, ()) := by
      simp only [List.mapM_cons, List.append_assoc]
      rw [Edge.translocate]
      cases x.label.translocate m with
      | error e => rfl
      | ok label =>
        cases l.mapM fun e => e.translocate m with
        | error e => rfl
        | ok copies => rfl
    rw [hsplit, bind_assoc, hresult]
    exact .lift_bind fun label =>
      (does_addEdge edges initial accepting ⟨x.source, x.target, label⟩).bind_follows (ih _)

/-- A copy has the edges of the forward lists, and new sets. -/
theorem makes_translocate {o : Object n} {sets : Sets} (h : o.Shows sets a) (m : Nat) :
    Makes (o.translocate m) sets (Attempt.ofMisuse (a.translocate m)) := by
  have hsize : o.forward.length = a.size := by
    rw [h.lists]
    exact length_forward_tables a
  have hedges : o.forwardEdges = a.bySource.map Edge.triple := by
    rw [h.lists]
    exact Tables.forwardEdges_tables a
  have hinitial : o.initial ∈ {r | r < sets.length} := (List.getElem?_eq_some_iff.mp h.initial).1
  have haccepting : o.accepting ∈ {r | r < sets.length} :=
    (List.getElem?_eq_some_iff.mp h.accepting).1
  have hcopies : Follows {r | r < sets.length} sets _ _ _ :=
    follows_addCopies (m := m) (k := a.size) [] [] a.bySource []
  unfold translocate
  rw [translocate_eq, hsize, hedges]
  cases hmap : a.bySource.mapM fun e => e.translocate m with
  | error e =>
    rw [hmap] at hcopies
    obtain ⟨a', hcopies⟩ := hcopies
    exact makes_of_does (hcopies.bind_error _)
  | ok copies =>
    rw [hmap] at hcopies
    have hclones : Does {r | r < sets.length} sets (cloneInitial o.initial >>= fun _ =>
        cloneAccepting o.accepting) ⟨a.size, copies, [], []⟩ (.ok ())
        ⟨a.size, copies, a.initial, a.accepting⟩ :=
      (does_cloneInitial hinitial h.initial).bind (does_cloneAccepting haccepting h.accepting)
    have hwork : Does {r | r < sets.length} sets (addCopies m (a.bySource.map Edge.triple) >>=
        fun _ => cloneInitial o.initial >>= fun _ => cloneAccepting o.accepting) (ofSize m a.size)
        (.ok ()) ⟨a.size, copies, a.initial, a.accepting⟩ := Does.bind hcopies hclones
    exact makes_of_does hwork

section Parse

open NeverClaim

variable {scope : Scope} {names : List String}

theorem follows_addLine (current : Option Nat) (text : List Char) :
    Follows others before (addLine scope names current text) a
      (NeverClaim.addLine scope names text (a, current)) := by
  unfold addLine NeverClaim.addLine
  refine .lift_bind fun told => ?_
  obtain ⟨edge, next⟩ := told
  cases edge with
  | none => exact Does.pure next
  | some e => exact (settles_addEdge e.1 e.2.1 e.2.2).bind_follows fun a' => Does.pure next

def chosen {k : Nat} (p : String → Bool) (indexed : List (String × Fin k)) : List (Fin k) :=
  (indexed.filter fun x => p x.1).map (·.2)

theorem chosen_concat {k : Nat} (p : String → Bool) (xs : List (String × Fin k))
    (x : String × Fin k) : chosen p (xs ++ [x]) = chosen p xs ++ if p x.1 then [x.2] else [] := by
  unfold chosen
  by_cases hx : p x.1 <;> simp [hx]

theorem does_addInitial {k : Nat} (edges : List (Edge n k)) (initial accepting : List (Fin k))
    (q : Fin k) :
    Does others before (addInitial q.val) ⟨k, edges, initial, accepting⟩ (.ok ())
      ⟨k, edges, initial ++ [q], accepting⟩ := by
  have hadd : Settles others before _ _ _ :=
    settles_addInitial (a := ⟨k, edges, initial, accepting⟩) q.val
  unfold Automaton.addInitial at hadd
  rw [checkState_val ⟨k, edges, initial, accepting⟩ q] at hadd
  exact hadd

theorem does_addAccepting {k : Nat} (edges : List (Edge n k)) (initial accepting : List (Fin k))
    (q : Fin k) :
    Does others before (addAccepting q.val) ⟨k, edges, initial, accepting⟩ (.ok ())
      ⟨k, edges, initial, accepting ++ [q]⟩ := by
  have hadd : Settles others before _ _ _ :=
    settles_addAccepting (a := ⟨k, edges, initial, accepting⟩) q.val
  unfold Automaton.addAccepting at hadd
  rw [checkState_val ⟨k, edges, initial, accepting⟩ q] at hadd
  exact hadd

theorem does_mark {k : Nat} (xs : List (String × Fin k)) (x : String × Fin k) :
    Does others before (mark x)
      (⟨k, [], chosen isInitialName xs, chosen isAcceptingName xs⟩ : Automaton n) (.ok ())
      ⟨k, [], chosen isInitialName (xs ++ [x]), chosen isAcceptingName (xs ++ [x])⟩ := by
  rw [chosen_concat, chosen_concat]
  unfold mark
  by_cases hinitial : isInitialName x.1 <;> by_cases haccepting : isAcceptingName x.1 <;>
    simp only [hinitial, haccepting, Bool.false_eq_true, if_true, if_false, List.append_nil]
  · exact (does_addInitial _ _ _ x.2).bind (does_addAccepting _ _ _ x.2)
  · exact (does_addInitial _ _ _ x.2).bind (.pure ())
  · exact does_addAccepting _ _ _ x.2
  · exact .pure ()

theorem skeleton_of_nil (hnames : 0 < names.length)
    (h : chosen isInitialName (names.zip (List.finRange names.length)) = []) :
    skeleton n names = ⟨names.length, [], [⟨0, hnames⟩],
      chosen isAcceptingName (names.zip (List.finRange names.length))⟩ := by
  have hfirst : (List.finRange names.length).take 1 = [⟨0, hnames⟩] := by
    apply List.ext_getElem?
    intro i
    cases i with
    | zero => simp [hnames]
    | succ i => simp
  unfold skeleton
  dsimp only
  split
  · rw [hfirst]
    rfl
  · next hstates => exact absurd h hstates

theorem skeleton_of_ne_nil
    (h : chosen isInitialName (names.zip (List.finRange names.length)) ≠ []) :
    skeleton n names = ⟨names.length, [],
      chosen isInitialName (names.zip (List.finRange names.length)),
      chosen isAcceptingName (names.zip (List.finRange names.length))⟩ := by
  unfold skeleton
  dsimp only
  split
  · next hstates => exact absurd hstates h
  · rfl

/-- The states of a claim are marked as their names say. -/
theorem does_declare (hnames : names ≠ []) :
    Does others before (declare names) (ofSize n names.length) (.ok ()) (skeleton n names) := by
  have hmark : Does others before ((names.zip (List.finRange names.length)).forM mark) _ (.ok ())
      (⟨names.length, [], chosen isInitialName _, chosen isAcceptingName _⟩ : Automaton n) :=
    Does.forM (fun xs => ⟨_, [], chosen isInitialName xs, chosen isAcceptingName xs⟩) _ does_mark []
  refine hmark.bind (does_get_bind fun b hb => ?_)
  have hset : b.sets.getD b.object.initial ∅ =
      ((chosen isInitialName (names.zip (List.finRange names.length))).map Fin.val).toFinset := by
    rw [List.getD_eq_getElem?_getD, hb.initial]
    rfl
  rw [List.nil_append]
  by_cases hchosen : chosen isInitialName (names.zip (List.finRange names.length)) = []
  · have hpos : 0 < names.length := List.length_pos_iff.mpr hnames
    rw [hchosen] at hset ⊢
    rw [if_pos (hset.trans List.toFinset_nil), skeleton_of_nil hpos hchosen]
    exact does_addInitial [] [] _ ⟨0, hpos⟩
  · have hne : b.sets.getD b.object.initial ∅ ≠ ∅ := by
      rw [hset]
      simpa using hchosen
    rw [if_neg hne, skeleton_of_ne_nil hchosen]
    exact .pure ()

theorem outline_ne_nil {text : String} {lines : List (List Char)}
    (h : outline text = .ok (lines, names)) : names ≠ [] := by
  unfold outline at h
  split at h
  · dsimp only at h
    split at h
    · cases h
    split at h
    · cases h
    next hempty =>
      cases h
      simpa using hempty
  · cases h

theorem follows_addLines (hnames : names ≠ []) (lines : List (List Char)) :
    Follows others before (addLines scope lines names) (ofSize n names.length)
      (lines.foldlM (fun s l => NeverClaim.addLine scope names l s) (skeleton n names, none) >>=
        fun s => .ok (s.1, ())) := by
  have hlines : Follows others before (lines.foldlM (addLine scope names) none) (skeleton n names)
      (lines.foldlM (fun s l => NeverClaim.addLine scope names l s) (skeleton n names, none)) :=
    .foldlM (fun a current text => follows_addLine current text) lines none
  exact (does_declare hnames).bind_follows (hlines.bind fun a' _ => Does.pure ())

/-- Reading a claim in place gives the automaton that is read. -/
theorem makes_parse (scope : Scope) (text : String) (sets : Sets) :
    Makes (parse scope text : Making n) sets (NeverClaim.parse scope text) := by
  unfold parse NeverClaim.parse
  refine makes_lift_bind fun told htold => ?_
  have hmakes : Makes (make _ (addLines scope told.1 told.2) : Making n) sets _ :=
    makes_make (follows_addLines (outline_ne_nil htold) told.1)
  rw [bind_assoc] at hmakes
  exact hmakes

end Parse

end Object
end SymbolicLtl.Automaton
