import Mathlib.Data.Nat.ModEq
import SymbolicLtl.Proofs.Model.Counter
import SymbolicLtl.Proofs.Reachability.Layers

/-!
A counter counts: the state after that of a number is the state of its successor, modulo the number of
states, so that a search from zero comes to one more state in every iteration until it is back at zero.
-/
namespace SymbolicLtl

/-- Adding one changes a bit when all lower ones are set. -/
theorem testBit_add_one (v i : Nat) :
    (v + 1).testBit i = (v.testBit i != decide (∀ j < i, v.testBit j = true)) := by
  induction i generalizing v with
  | zero =>
    rcases Nat.mod_two_eq_zero_or_one v with hv | hv
    · simp [Nat.testBit_zero, Nat.add_mod, hv]
    · simp [Nat.testBit_zero, Nat.add_mod, hv]
  | succ i ih =>
    have hlow : (∀ j < i + 1, v.testBit j = true) ↔
        v % 2 = 1 ∧ ∀ j < i, (v / 2).testBit j = true := by
      rw [Nat.forall_lt_succ_left]
      simp only [Nat.testBit_zero, Nat.testBit_succ, decide_eq_true_eq]
    rw [Nat.testBit_succ, Nat.testBit_succ]
    simp only [hlow]
    rcases Nat.mod_two_eq_zero_or_one v with hv | hv
    · have hhalf : (v + 1) / 2 = v / 2 := by omega
      simp [hhalf, hv]
    · have hhalf : (v + 1) / 2 = v / 2 + 1 := by omega
      simp [hhalf, hv, ih]

theorem carry_congr {f g : Nat → Bool} {i : Nat} (h : ∀ j ≤ i, f j = g j) :
    (f i != decide (∀ j < i, f j = true)) = (g i != decide (∀ j < i, g j = true)) := by
  have hlow : (∀ j < i, f j = true) ↔ ∀ j < i, g j = true :=
    forall_congr' fun j => forall_congr' fun hj => by rw [h j (Nat.le_of_lt hj)]
  rw [h i (Nat.le_refl i)]
  simp only [hlow]

namespace State

/-- The state whose values are the binary digits of a number. -/
def ofNat (k v : Nat) : State k := fun i => v.testBit i

theorem ofNat_eq_iff {k v w : Nat} : ofNat k v = ofNat k w ↔ v % 2 ^ k = w % 2 ^ k := by
  constructor
  · intro h
    apply Nat.eq_of_testBit_eq
    intro i
    rw [Nat.testBit_mod_two_pow, Nat.testBit_mod_two_pow]
    by_cases hi : i < k
    · rw [show v.testBit i = w.testBit i from congrFun h ⟨i, hi⟩]
    · simp [hi]
  · intro h
    funext i
    have hbit := congrArg (Nat.testBit · i) h
    change v.testBit i = w.testBit i
    simpa [Nat.testBit_mod_two_pow] using hbit

theorem ofNat_succ_inj {k v w : Nat} : ofNat k (v + 1) = ofNat k (w + 1) ↔ ofNat k v = ofNat k w := by
  rw [ofNat_eq_iff, ofNat_eq_iff]
  exact ⟨Nat.ModEq.add_right_cancel' 1, Nat.ModEq.add_right 1⟩

theorem exists_ofNat {k : Nat} (x : State k) : ∃ v < 2 ^ k, ofNat k v = x := by
  let ρ : Nat → Bool := fun i => if h : i < k then x ⟨i, h⟩ else false
  refine ⟨assignmentCode ρ k, assignmentCode_lt ρ k, ?_⟩
  funext i
  rw [ofNat, testBit_assignmentCode ρ i.isLt]
  simp [ρ]

end State

def Diagram.IsNumber {n : Nat} (d : Diagram n) (bits v : Nat) : Prop :=
  ∀ ρ, d.eval ρ = true ↔ ∀ i < bits, ρ (currentVar i) = v.testBit i

namespace Diagram.IsNumber

variable {n bits v w : Nat} {d e : Diagram n}

theorem states (h : d.IsNumber bits v) :
    d.OverCurrent bits ∧ ∀ x : State bits, d.HoldsAt x ↔ x = .ofNat bits v := by
  apply states_of_eval
  intro ρ
  rw [h, funext_iff, Fin.forall_iff]
  rfl

theorem congr (h : d.IsNumber bits v) (hvw : v % 2 ^ bits = w % 2 ^ bits) : d.IsNumber bits w := by
  intro ρ
  rw [h]
  refine forall_congr' fun i => forall_congr' fun hi => ?_
  rw [show v.testBit i = w.testBit i from congrFun (State.ofNat_eq_iff.mpr hvw) ⟨i, hi⟩]

theorem unique (hd : d.IsNumber bits v) (he : e.IsNumber bits v) : d = e := by
  apply Diagram.ext
  intro ρ
  rw [Bool.eq_iff_iff, hd, he]

end Diagram.IsNumber

def binaryLiterals (bits v : Nat) : List Diagram.Literal :=
  (List.range bits).map fun i => ⟨currentVar i, v.testBit i⟩

theorem exists_number {n bits : Nat} (hn : 2 * bits ≤ n) (v : Nat) :
    ∃ d : Diagram n, Diagram.cube (binaryLiterals bits v) = .ok d ∧ d.IsNumber bits v := by
  have hbounds : ∀ l ∈ binaryLiterals bits v, 0 ≤ l.var ∧ l.var < n := by
    intro l hl
    obtain ⟨i, hi, rfl⟩ := List.mem_map.mp hl
    have hlt := List.mem_range.mp hi
    simp only [currentVar]
    omega
  obtain ⟨d, hd, heval, -⟩ := Diagram.exists_cube hbounds
  refine ⟨d, hd, fun ρ => ?_⟩
  rw [heval, binaryLiterals]
  simp

namespace Model.Counts

variable {n : Nat} {r : Relation n} {s : Scope}

theorem overStates (h : Counts r.numVars r s) : r.OverStates where
  parts_ne_nil := h.parts_ne_nil
  holds_congr σ τ hστ hσ := by
    have hcurrent : ∀ i < r.numVars, σ (currentVar i) = τ (currentVar i) := by
      intro i hi
      exact hστ _ (by unfold currentVar; omega)
    have hnext : ∀ i < r.numVars, σ (nextVar i) = τ (nextVar i) := by
      intro i hi
      exact hστ _ (by unfold nextVar; omega)
    rw [h.holds] at hσ ⊢
    intro i hi
    rw [← hnext i hi, hσ i hi]
    exact carry_congr (f := fun j => σ (currentVar j)) (g := fun j => τ (currentVar j))
      fun j hj => hcurrent j (by omega)

theorem next_ofNat (h : Counts r.numVars r s) {v : Nat} {y : State r.numVars} :
    r.Next (.ofNat _ v) y ↔ y = .ofNat _ (v + 1) := by
  have hcurrent : ∀ i < r.numVars,
      (State.ofNat _ v).pair y (currentVar i) = v.testBit i := by
    intro i hi
    exact State.pair_currentVar _ y ⟨i, hi⟩
  rw [Relation.Next, h.holds, funext_iff, Fin.forall_iff]
  refine forall_congr' fun i => forall_congr' fun hi => ?_
  have hcarry := carry_congr (f := fun j => (State.ofNat _ v).pair y (currentVar j))
    (g := v.testBit) (i := i) fun j hj => hcurrent j (by omega)
  rw [hcarry, show (State.ofNat _ v).pair y (nextVar i) = y ⟨i, hi⟩ from
    State.pair_nextVar _ y ⟨i, hi⟩, State.ofNat, testBit_add_one]

theorem postImage_number (h : Counts r.numVars r s) {v : Nat} {d e : Diagram n}
    (hd : d.IsNumber r.numVars v) (he : e.IsNumber r.numVars (v + 1)) : r.postImage d = e := by
  obtain ⟨t, ht, hover, hstates⟩ := Relation.exists_image_states h.overStates hd.states.1 .forward
  cases ht
  apply hover.eq_of_holdsAt he.states.1
  intro y
  rw [hstates, he.states.2]
  simp only [hd.states.2, Relation.NextTo, exists_eq_left, h.next_ofNat]

theorem preImage_number (h : Counts r.numVars r s) {v : Nat} {d e : Diagram n}
    (hd : d.IsNumber r.numVars v) (he : e.IsNumber r.numVars (v + 1)) : r.preImage e = .ok d := by
  obtain ⟨t, ht, hover, hstates⟩ := Relation.exists_image_states h.overStates he.states.1 .backward
  have hsame : t = d := by
    apply hover.eq_of_holdsAt hd.states.1
    intro x
    obtain ⟨w, hw, rfl⟩ := x.exists_ofNat
    rw [hstates, hd.states.2]
    simp only [he.states.2, Relation.NextTo, exists_eq_left, h.next_ofNat]
    rw [State.ofNat_succ_inj, eq_comm]
  rw [← hsame]
  exact ht

end Model.Counts

/-- One state, with an edge from it to itself that may always be taken. -/
def Automaton.idle (n : Nat) (accepting : List (Fin 1)) : Automaton n where
  size := 1
  edges := [⟨⟨0, Nat.one_pos⟩, ⟨0, Nat.one_pos⟩, .const true⟩]
  initial := [⟨0, Nat.one_pos⟩]
  accepting := accepting

/-- A relation beside an automaton that leaves it alone. -/
abbrev Relation.alone {n : Nat} (r : Relation n) (accepting : List (Fin 1)) : Product n :=
  ⟨r, .idle n accepting⟩

namespace Model.Counts

variable {n : Nat} {r : Relation n} {s : Scope} {accepting : List (Fin 1)}

theorem productOverStates (h : Counts r.numVars r s) :
    (r.alone accepting).OverStates where
  parts_ne_nil := h.parts_ne_nil
  holds_congr := h.overStates.holds_congr
  labels e he := by
    obtain rfl := List.mem_singleton.mp he
    exact .const true

theorem keeps_iff {x y : (r.alone accepting).Node} :
    (r.alone accepting).Keeps .forward none x y ↔ r.Next x.1 y.1 := by
  constructor
  · rintro ⟨⟨hnext, -⟩, -⟩
    exact hnext
  · intro hnext
    refine ⟨⟨hnext, _, List.mem_singleton_self _, ?_, ?_, Diagram.eval_const ..⟩,
      Diagram.eval_const ..⟩
    · exact Subsingleton.elim (α := Fin 1) _ _
    · exact Subsingleton.elim (α := Fin 1) _ _

theorem isNumber_init (h : Counts r.numVars r s) : r.init.IsNumber r.numVars 0 := by
  intro ρ
  rw [h.init]
  simp only [Nat.zero_testBit]

theorem contains_start_iff (h : Counts r.numVars r s) {x : (r.alone accepting).Node} :
    Product.Contains (r.alone accepting).start x ↔ x.1 = .ofNat _ 0 := by
  have hinitial : x.2 ∈ (Automaton.idle n accepting).initial :=
    List.mem_singleton.mpr (Subsingleton.elim (α := Fin 1) _ _)
  rw [Product.contains_start, Product.Starts, and_iff_left hinitial]
  exact h.isNumber_init.states.2 x.1

/-- After `j` iterations the numbers from `1` to `j` have been reached. -/
theorem within_iff (h : Counts r.numVars r s) {j : Nat}
    {y : (r.alone accepting).Node} :
    Within ((r.alone accepting).Keeps .forward none)
        (Product.Contains (r.alone accepting).start) j y ↔
      ∃ v, 1 ≤ v ∧ v ≤ j ∧ y.1 = .ofNat _ v := by
  induction j generalizing y with
  | zero =>
    constructor
    · intro hy
      cases hy
    · rintro ⟨v, hpos, hle, -⟩
      omega
  | succ j ih =>
    constructor
    · rintro ⟨x, hx, hstep⟩
      have hnumber : ∃ v ≤ j, x.1 = .ofNat _ v := by
        rcases hx with hx | hx
        · exact ⟨0, Nat.zero_le j, h.contains_start_iff.mp hx⟩
        · obtain ⟨v, -, hle, hv⟩ := ih.mp hx
          exact ⟨v, hle, hv⟩
      obtain ⟨v, hle, hv⟩ := hnumber
      rw [keeps_iff, hv, h.next_ofNat] at hstep
      exact ⟨v + 1, by omega, by omega, hstep⟩
    · rintro ⟨v, hpos, hle, hv⟩
      obtain ⟨w, rfl⟩ : ∃ w, v = w + 1 := ⟨v - 1, by omega⟩
      refine ⟨(.ofNat _ w, y.2), ?_, ?_⟩
      · rcases Nat.eq_zero_or_pos w with rfl | hw
        · exact .inl (h.contains_start_iff.mpr rfl)
        · exact .inr (ih.mpr ⟨w, hw, by omega, rfl⟩)
      · rw [keeps_iff, h.next_ofNat]
        exact hv

/-- The search from zero finds all states; it takes an iteration for each of them and one to see the
end. -/
theorem search_exact (h : Counts r.numVars r s) (accepting : List (Fin 1)) :
    let search := (r.alone accepting).search .forward (r.alone accepting).start none
    (∃ found, search.result = .ok found ∧ ∀ q, found q = .const true) ∧
      search.iterations = 2 ^ r.numVars + 1 := by
  intro search
  have hp : (r.alone accepting).OverStates := h.productOverStates
  have hstart := Product.overCurrent_start (p := r.alone accepting) h.isNumber_init.states.1
  have hpow : 0 < 2 ^ r.numVars := Nat.two_pow_pos _
  constructor
  · obtain ⟨found, hresult, hover, hfound⟩ :=
      @Product.search_states n _ hp .forward _ none (fun _ => rfl) hstart fun _ => .const true
    refine ⟨found, hresult, fun q => ?_⟩
    apply (hover q).eq_of_holdsAt (.const true)
    intro x
    obtain ⟨v, hv, rfl⟩ := x.exists_ofNat
    refine iff_of_true ?_ (Diagram.eval_const ..)
    -- Zero is reached as the number behind the last one.
    refine (hfound (_, q)).mpr (exists_within_iff.mp ⟨2 ^ r.numVars + v, h.within_iff.mpr ?_⟩)
    refine ⟨2 ^ r.numVars + v, by omega, Nat.le_refl _, ?_⟩
    exact State.ofNat_eq_iff.mpr (Nat.add_mod_left _ v).symm
  · apply Product.search_iterations hp hstart
    · exact fun _ => rfl
    · exact fun _ => .const true
    · exact ⟨(.ofNat _ 0, ⟨0, Nat.one_pos⟩), h.contains_start_iff.mpr rfl⟩
    · intro j hj
      refine ⟨(.ofNat _ (j + 1), ⟨0, Nat.one_pos⟩), ?_, ?_⟩
      · exact h.within_iff.mpr ⟨j + 1, by omega, Nat.le_refl _, rfl⟩
      · intro hwithin
        obtain ⟨v, hpos, hle, hv⟩ := h.within_iff.mp hwithin
        have hmod : (j + 1) % 2 ^ r.numVars = v % 2 ^ r.numVars := State.ofNat_eq_iff.mp hv
        rw [Nat.mod_eq_of_lt (a := v) (by omega)] at hmod
        rcases Nat.lt_or_eq_of_le hj with hlt | heq
        · rw [Nat.mod_eq_of_lt hlt] at hmod
          omega
        · rw [← heq, Nat.mod_self] at hmod
          omega
    · intro y hy
      obtain ⟨v, hpos, hle, hv⟩ := h.within_iff.mp hy
      rcases Nat.lt_or_eq_of_le hle with hlt | rfl
      · exact h.within_iff.mpr ⟨v, hpos, by omega, hv⟩
      · refine h.within_iff.mpr ⟨1, Nat.le_refl 1, hpow, ?_⟩
        rw [hv]
        exact State.ofNat_eq_iff.mpr (Nat.add_mod_left _ 1)

end Model.Counts

namespace Model

/-- A counter of any width passes the check of its names and has a relation, by either method. Its initial
state is zero; after the state of a number comes that of its successor, modulo the number of states, and
nothing else comes before that; and `max` is the highest number. From zero, a search beside an automaton
that leaves the counter alone finds all states, in one iteration more than there are states. -/
theorem counter_counts {bits n : Nat} (hbits : 1 ≤ bits) (hn : 2 * bits ≤ n) {method : Method}
    (hmethod : ∀ code, method ≠ .other code) :
    (counter bits).validate = .ok () ∧ ∃ (r : Relation n) (s : Scope),
      (counter bits).build n method = .ok (r, s) ∧ r.numVars = bits ∧
      ∃ state : Nat → Diagram n,
        (∀ v, Diagram.cube (binaryLiterals bits v) = .ok (state v) ∧
          ∀ ρ, (state v).eval ρ = true ↔ ∀ i < bits, ρ (currentVar i) = v.testBit i) ∧
        r.init = state 0 ∧
        (∀ v < 2 ^ bits, r.postImage (state v) = state ((v + 1) % 2 ^ bits) ∧
          r.preImage (state ((v + 1) % 2 ^ bits)) = .ok (state v)) ∧
        s.compileText "max" = .ok (state (2 ^ bits - 1)) ∧
        ∀ (accepting : List (Fin 1)) (strategy : Strategy (r.alone accepting)),
          strategy.engine = .sequential →
          let passage := strategy.reachable .forward (r.alone accepting).start none
          (∃ found, passage.result = .ok found ∧ ∀ q, found q = .const true) ∧
            passage.strategy.work.iterations = strategy.work.iterations + (2 ^ bits + 1) := by
  refine ⟨validate_counter hbits, ?_⟩
  obtain ⟨r, s, hbuild, hcounts⟩ := exists_counts hbits hn hmethod
  obtain rfl := hcounts.numVars
  choose state hcube hstate using @exists_number n r.numVars hn
  refine ⟨r, s, hbuild, rfl, state, fun v => ⟨hcube v, hstate v⟩, ?_, ?_, ?_, ?_⟩
  · exact hcounts.isNumber_init.unique (hstate 0)
  · intro v _
    have hnext := (hstate ((v + 1) % 2 ^ r.numVars)).congr (Nat.mod_mod _ _)
    exact ⟨hcounts.postImage_number (hstate v) hnext, hcounts.preImage_number (hstate v) hnext⟩
  · obtain ⟨max, hmax, heval⟩ := hcounts.max
    have hnumber : max.IsNumber r.numVars (2 ^ r.numVars - 1) := by
      intro ρ
      rw [heval]
      refine forall_congr' fun i => forall_congr' fun hi => ?_
      rw [Nat.testBit_two_pow_sub_one, decide_eq_true hi]
    rw [hmax, hnumber.unique (hstate _)]
  · intro accepting strategy hengine passage
    obtain ⟨event, hpassed⟩ := strategy.exists_reachable_eq hengine .forward
      (r.alone accepting).start none
    obtain ⟨hfound, hiterations⟩ := hcounts.search_exact accepting
    simp only [passage, hpassed]
    exact ⟨hfound, congrArg (strategy.work.iterations + ·) hiterations⟩

/-- With three bits, zero comes after seven, and the search takes nine iterations. -/
theorem counter_counts_three : ∃ (r : Relation 6) (s : Scope) (zero seven : Diagram 6),
    (counter 3).build 6 .partition = .ok (r, s) ∧
      Diagram.cube (binaryLiterals 3 0) = .ok zero ∧ Diagram.cube (binaryLiterals 3 7) = .ok seven ∧
      r.postImage seven = zero ∧ r.preImage zero = .ok seven ∧ s.compileText "max" = .ok seven ∧
      ((Strategy.sequential (r.alone []) false).reachable .forward (r.alone []).start
        none).strategy.work.iterations = 9 := by
  obtain ⟨-, r, s, hbuild, -, state, hstate, -, himages, hmax, hsearch⟩ :=
    @counter_counts 3 6 (by decide) (by decide) .partition fun code h => by cases h
  obtain ⟨hpost, hpre⟩ := himages 7 (by decide)
  refine ⟨r, s, state 0, state 7, hbuild, (hstate 0).1, (hstate 7).1, hpost, hpre, hmax, ?_⟩
  rw [(hsearch [] (Strategy.sequential _ false) rfl).2]
  rfl

end Model
end SymbolicLtl
