import Mathlib.Data.Int.ConditionallyCompleteOrder
import Mathlib.Data.Int.Interval
import Mathlib.Data.Set.Card
import SymbolicLtl.Proofs.Slicing.Cover

/-!
Which worker owns what. The values of some variables cut the assignments into slices that do not
overlap, and workers are numbered by an automaton state and a slice. As long as a word has numbers
for all of these pairs, an assignment at an automaton state belongs to exactly one worker.
-/
namespace SymbolicLtl

namespace Slice

theorem length_foldl_split (vars : List Int) (slices : List Slice) :
    (vars.foldl split slices).length = 2 ^ vars.length * slices.length := by
  induction vars generalizing slices with
  | nil => simp
  | cons v vars ih =>
    have hsplit : (split slices v).length = 2 * slices.length := by
      simp [split, List.length_flatMap, Nat.mul_comm]
    rw [List.foldl_cons, ih, hsplit, List.length_cons, Nat.pow_succ, Nat.mul_assoc]

theorem nodup_foldl_split {vars : List Int} {slices : List Slice} (h : slices.Nodup) :
    (vars.foldl split slices).Nodup := by
  induction vars generalizing slices with
  | nil => exact h
  | cons v vars ih =>
    refine ih (List.nodup_flatMap.mpr ⟨fun s _ => by simp, ?_⟩)
    refine h.imp fun {s t} hne => ?_
    simp [Function.onFun, hne.symm]

/-- An assignment lies in one of the slices and in no other. -/
theorem existsUnique_holds {vars : List Int} {slices : List Slice} (h : all vars = .ok slices)
    (ρ : Nat → Bool) : ∃! i : Nat, ∃ s : Slice, slices[i]? = some s ∧ s.Holds ρ := by
  have hnodup : slices.Nodup := by
    obtain ⟨-, -, rfl⟩ := all_eq_ok_iff.mp h
    exact nodup_foldl_split (List.nodup_singleton [])
  have heq : ∀ s ∈ slices, s.Holds ρ ↔ s = ofAssignment vars ρ := by
    intro s hs
    rw [holds_iff_eq, (mem_of_all h).mp hs]
  have hmem : ofAssignment vars ρ ∈ slices := (mem_of_all h).mpr (map_var_ofAssignment vars ρ)
  obtain ⟨i, hi⟩ := List.mem_iff_getElem?.mp hmem
  refine ⟨i, ⟨_, hi, (heq _ hmem).mpr rfl⟩, ?_⟩
  rintro j ⟨s, hj, hs⟩
  obtain rfl := (heq s (List.mem_of_getElem? hj)).mp hs
  obtain ⟨hlt, -⟩ := List.getElem?_eq_some_iff.mp hj
  exact (List.getElem?_inj hlt hnodup).mp (hj.trans hi.symm)

/-- The cubes of slices over the variables of a diagram: each is true where its slice holds, no two are
true together, and everywhere one of them is. -/
theorem exists_cubes {vars : List Int} {slices : List Slice} (h : all vars = .ok slices) {n : Nat}
    (hvars : ∀ v ∈ vars, v < n) :
    ∃ cube : Slice → Diagram n,
      (∀ s ∈ slices, Diagram.cube s = .ok (cube s) ∧ ∀ ρ, (cube s).eval ρ = true ↔ s.Holds ρ) ∧
      slices.Pairwise (fun s t => (cube s).and (cube t) = .const false) ∧
      ∀ ρ, ∃ s ∈ slices, (cube s).eval ρ = true := by
  obtain ⟨-, hpos, -⟩ := all_eq_ok_iff.mp h
  have hcube : ∀ s, ∃ d : Diagram n, s ∈ slices →
      Diagram.cube s = .ok d ∧ ∀ ρ, d.eval ρ = true ↔ s.Holds ρ := by
    intro s
    by_cases hs : s ∈ slices
    · have hrange : ∀ l ∈ s, 0 ≤ l.var ∧ l.var < n := by
        intro l hl
        have hl : l.var ∈ vars := (mem_of_all h).mp hs ▸ List.mem_map_of_mem hl
        exact ⟨hpos _ hl, hvars _ hl⟩
      obtain ⟨d, hd, heval, -⟩ := Diagram.exists_cube hrange
      exact ⟨d, fun _ => ⟨hd, heval⟩⟩
    · exact ⟨.const false, fun hmem => absurd hmem hs⟩
  choose cube hcube using hcube
  refine ⟨cube, hcube, ?_, fun ρ => ?_⟩
  · rw [List.pairwise_iff_getElem]
    intro i j hi hj hij
    apply Diagram.ext
    intro ρ
    rw [Diagram.eval_const, Bool.eq_false_iff, Diagram.eval_and, ne_eq, Bool.and_eq_true,
      (hcube _ (List.getElem_mem hi)).2, (hcube _ (List.getElem_mem hj)).2]
    rintro ⟨hs, ht⟩
    have hsame : i = j := (existsUnique_holds h ρ).unique
      ⟨_, List.getElem?_eq_getElem hi, hs⟩ ⟨_, List.getElem?_eq_getElem hj, ht⟩
    omega
  · obtain ⟨i, s, hi, hs⟩ := (existsUnique_holds h ρ).exists
    have hmem := List.mem_of_getElem? hi
    exact ⟨s, hmem, ((hcube s hmem).2 ρ).mpr hs⟩

end Slice

namespace Layout

variable {l : Layout}

def pairs (l : Layout) : Set (Int × Int) := Set.Ico 0 l.states ×ˢ Set.Ico 0 (l.numSlices : Int)

/-- A word has numbers for all pairs. -/
def Fits (l : Layout) : Prop := l.states * l.numSlices < 2 ^ 63

theorem numSlices_pos (l : Layout) : 0 < l.numSlices := List.length_pos_iff.mpr l.nonempty

theorem size_eq (hl : l.Fits) (hstates : 0 ≤ l.states) : l.size = l.states * l.numSlices := by
  have hpos : 0 ≤ l.states * l.numSlices := Int.mul_nonneg hstates (Int.natCast_nonneg _)
  unfold Fits at hl
  exact wordOf_eq_self (by omega) (by omega)

/-- A pair has a number among those of the workers, and the worker with this number has the pair. -/
theorem owner_id (hl : l.Fits) {x : Int × Int} (hx : x ∈ l.pairs) :
    l.id x.1 x.2 ∈ Set.Ico 0 l.size ∧ l.owner (l.id x.1 x.2) = x := by
  obtain ⟨⟨hq, hq'⟩, hi, hi'⟩ := hx
  have hbelow : x.1 * l.numSlices + x.2 < l.states * l.numSlices := by
    calc x.1 * l.numSlices + x.2 < (x.1 + 1) * l.numSlices := by rw [Int.add_mul]; omega
      _ ≤ l.states * l.numSlices := Int.mul_le_mul_of_nonneg_right hq' (Int.natCast_nonneg _)
  have hpos : 0 ≤ x.1 * l.numSlices := Int.mul_nonneg hq (Int.natCast_nonneg _)
  have hid : l.id x.1 x.2 = x.1 * l.numSlices + x.2 := by
    unfold Fits at hl
    exact wordOf_eq_self (by omega) (by omega)
  have hsize := size_eq hl (by omega)
  refine ⟨⟨by omega, by omega⟩, ?_⟩
  rw [owner, hid, Int.tdiv_eq_ediv_of_nonneg (by omega), Int.tmod_eq_emod_of_nonneg (by omega)]
  refine Prod.ext ?_ ?_
  · rw [Int.add_comm, Int.add_mul_ediv_right _ _ (by omega), Int.ediv_eq_zero_of_lt hi hi',
      Int.zero_add]
  · rw [Int.add_comm, Int.add_mul_emod_self_right, Int.emod_eq_of_lt hi hi']

/-- A worker has a pair, and this pair has the number of the worker. -/
theorem id_owner (hl : l.Fits) (hstates : 0 ≤ l.states) {w : Int} (hw : w ∈ Set.Ico 0 l.size) :
    l.owner w ∈ l.pairs ∧ l.id (l.owner w).1 (l.owner w).2 = w := by
  have hslices := l.numSlices_pos
  have hsize := size_eq hl hstates
  obtain ⟨hpos, hlt⟩ := hw
  have howner : l.owner w = (w / l.numSlices, w % l.numSlices) := by
    rw [owner, Int.tdiv_eq_ediv_of_nonneg hpos, Int.tmod_eq_emod_of_nonneg hpos]
  rw [howner]
  have hdiv := Int.ediv_mul_add_emod w l.numSlices
  refine ⟨⟨⟨Int.ediv_nonneg hpos (by omega), ?_⟩, Int.emod_nonneg _ (by omega),
    Int.emod_lt_of_pos _ (by omega)⟩, ?_⟩
  · exact Int.ediv_lt_of_lt_mul (by omega) (by omega)
  · unfold Fits at hl
    rw [id, hdiv]
    exact wordOf_eq_self (by omega) (by omega)

theorem invOn_owner_id (hl : l.Fits) (hstates : 0 ≤ l.states) :
    Set.InvOn l.owner (fun x => l.id x.1 x.2) l.pairs (Set.Ico 0 l.size) :=
  ⟨fun _ hx => (owner_id hl hx).2, fun _ hw => (id_owner hl hstates hw).2⟩

/-- Pairs and workers correspond to each other exactly where a word has numbers for all pairs. -/
theorem bijOn_id_iff (hstates : 0 ≤ l.states) :
    Set.BijOn (fun x => l.id x.1 x.2) l.pairs (Set.Ico 0 l.size) ↔ l.Fits := by
  constructor
  · intro hbij
    have hcard : ∀ b : Int, (Set.Ico 0 b).ncard = b.toNat := by
      intro b
      rw [← Finset.coe_Ico, Set.ncard_coe_finset, Int.card_Ico, Int.sub_zero]
    have hsize : l.size < 2 ^ 63 := by
      rw [size, wordOf, Int.bmod_def]
      split <;> omega
    have hcount : l.states * l.numSlices = l.size.toNat := by
      have hncard := hbij.ncard_eq
      rw [pairs, Set.ncard_prod, hcard, hcard, hcard, Int.toNat_natCast] at hncard
      rw [← hncard, Int.natCast_mul, Int.toNat_of_nonneg hstates]
    unfold Fits
    omega
  · intro hl
    exact (invOn_owner_id hl hstates).bijOn (fun _ hx => (owner_id hl hx).1)
      fun _ hw => (id_owner hl hstates hw).1

/-- A worker owns an assignment at an automaton state: it has the state, and a slice in which the
assignment lies. -/
def Owns (l : Layout) (w q : Int) (ρ : Nat → Bool) : Prop :=
  w ∈ Set.Ico 0 l.size ∧ ∃ (i : Nat) (s : Slice), l.owner w = (q, (i : Int)) ∧
    l.slices[i]? = some s ∧ s.Holds ρ

theorem existsUnique_owns {vars : List Int} (h : Slice.all vars = .ok l.slices) (hl : l.Fits)
    {q : Int} (hq : q ∈ Set.Ico 0 l.states) (ρ : Nat → Bool) : ∃! w, l.Owns w q ρ := by
  obtain ⟨i, ⟨s, hi, hs⟩, hunique⟩ := Slice.existsUnique_holds h ρ
  have hpair : (q, (i : Int)) ∈ l.pairs := by
    obtain ⟨hlt, -⟩ := List.getElem?_eq_some_iff.mp hi
    refine ⟨hq, Int.natCast_nonneg i, ?_⟩
    dsimp only [numSlices]
    omega
  have hstates : 0 ≤ l.states := Int.le_trans hq.1 (Int.le_of_lt hq.2)
  refine ⟨l.id q i, ⟨(owner_id hl hpair).1, i, s, (owner_id hl hpair).2, hi, hs⟩, ?_⟩
  rintro w ⟨hw, j, t, howner, hj, ht⟩
  obtain rfl : j = i := hunique j ⟨t, hj, ht⟩
  rw [← (id_owner hl hstates hw).2, howner]

@[simp] theorem states_make (states : Int) (slices : List Slice) :
    (make states slices).states = states := by
  cases slices <;> rfl

/-- Variables are refused exactly when one of them is negative or listed twice. Otherwise there is a
slice for each choice of values of all variables, and these slices have cubes that do not overlap and
leave no assignment out. The pairs of an automaton state and a slice correspond to the workers exactly
where a word has numbers for all of them; then a worker has the pair with its number, and every assignment
at an automaton state has one owner. -/
theorem ownership_exact (vars : List Int) :
    ((∃ e, Slice.all vars = .error e) ↔ (∃ v ∈ vars, v < 0) ∨ ¬ vars.Nodup) ∧
    ((∀ v ∈ vars, 0 ≤ v) → vars.Nodup → ∃ slices, Slice.all vars = .ok slices ∧
      slices.length = 2 ^ vars.length ∧
      (∀ s ∈ slices, s.map Diagram.Literal.var = vars) ∧
      (∀ n : Nat, (∀ v ∈ vars, v < n) → ∃ cube : Slice → Diagram n,
        (∀ s ∈ slices, Diagram.cube s = .ok (cube s) ∧ ∀ ρ, (cube s).eval ρ = true ↔ s.Holds ρ) ∧
        slices.Pairwise (fun s t => (cube s).and (cube t) = .const false) ∧
        ∀ ρ, ∃ s ∈ slices, (cube s).eval ρ = true) ∧
      ∀ states : Nat,
        let l := make states slices
        let pairs := Set.Ico 0 (states : Int) ×ˢ Set.Ico 0 (2 ^ vars.length : Int)
        (Set.BijOn (fun x => l.id x.1 x.2) pairs (Set.Ico 0 l.size) ↔
          states * 2 ^ vars.length < 2 ^ 63) ∧
        (states * 2 ^ vars.length < 2 ^ 63 →
          l.size = states * 2 ^ vars.length ∧
          Set.BijOn l.owner (Set.Ico 0 l.size) pairs ∧
          Set.InvOn l.owner (fun x => l.id x.1 x.2) pairs (Set.Ico 0 l.size) ∧
          ∀ ρ, ∀ q : Nat, q < states → ∃! w, l.Owns w q ρ)) := by
  constructor
  · constructor
    · rintro ⟨e, he⟩
      by_contra hnot
      push Not at hnot
      rw [Slice.all_eq_ok_iff.mpr ⟨hnot.2, hnot.1, rfl⟩] at he
      cases he
    · intro hbad
      cases hall : Slice.all vars with
      | error e => exact ⟨e, rfl⟩
      | ok slices =>
        obtain ⟨hnodup, hpos, -⟩ := Slice.all_eq_ok_iff.mp hall
        rcases hbad with ⟨v, hv, hneg⟩ | hrepeated
        · have := hpos v hv
          omega
        · exact absurd hnodup hrepeated
  · intro hpos hnodup
    have hall := Slice.all_eq_ok_iff.mpr ⟨hnodup, hpos, rfl⟩
    have hlength : (vars.foldl Slice.split [[]]).length = 2 ^ vars.length := by
      rw [Slice.length_foldl_split, List.length_singleton, Nat.mul_one]
    refine ⟨_, hall, hlength, fun s hs => (Slice.mem_of_all hall).mp hs,
      fun n hvars => Slice.exists_cubes hall hvars, fun states => ?_⟩
    intro l pairs
    have hslices : l.slices = vars.foldl Slice.split [[]] := slices_make <| by
      rw [← List.length_pos_iff, hlength]
      exact Nat.two_pow_pos _
    have hnum : l.numSlices = 2 ^ vars.length := by rw [numSlices, hslices, hlength]
    have hstates : l.states = states := states_make _ _
    have hpairs : l.pairs = pairs := by
      rw [Layout.pairs, hstates, hnum]
      norm_cast
    have hfits : l.Fits ↔ states * 2 ^ vars.length < 2 ^ 63 := by
      rw [Fits, hstates, hnum]
      norm_cast
    have hnonneg : 0 ≤ l.states := hstates ▸ Int.natCast_nonneg states
    rw [← hpairs, ← hfits]
    refine ⟨bijOn_id_iff hnonneg, fun hl => ⟨?_, ?_, invOn_owner_id hl hnonneg, fun ρ q hq => ?_⟩⟩
    · rw [size_eq hl hnonneg, hstates, hnum]
      norm_cast
    · exact (invOn_owner_id hl hnonneg).symm.bijOn (fun _ hw => (id_owner hl hnonneg hw).1)
        fun _ hx => (owner_id hl hx).1
    · refine existsUnique_owns (hslices ▸ hall) hl ⟨Int.natCast_nonneg q, ?_⟩ ρ
      rw [hstates]
      exact Int.ofNat_lt.mpr hq

/-- Two variables and three automaton states give twelve workers. Every assignment of four variables has one
of them as its owner at the last automaton state. -/
theorem ownership_twelve : ∃ slices, Slice.all [0, 2] = .ok slices ∧ slices.length = 4 ∧
    (∃ cube : Slice → Diagram 4, ∀ s ∈ slices, Diagram.cube s = .ok (cube s)) ∧
    (make 3 slices).size = 12 ∧ ∀ ρ, ∃! w, (make 3 slices).Owns w 2 ρ := by
  obtain ⟨slices, hall, hlength, -, hcubes, hlayout⟩ :=
    (ownership_exact [0, 2]).2 (by decide) (by decide)
  obtain ⟨cube, hcube, -⟩ := hcubes 4 (by decide)
  obtain ⟨-, hfits⟩ := hlayout 3
  obtain ⟨hsize, -, -, howner⟩ := hfits (by decide)
  exact ⟨slices, hall, hlength, ⟨cube, fun s hs => (hcube s hs).1⟩, hsize, fun ρ => howner ρ 2 (by decide)⟩

/-- With two slices and more than `2 ^ 62` automaton states numbers wrap: the first slice of state `2 ^ 62`
has a negative number, and the worker with this number would have a negative state. -/
theorem id_wraps :
    let l := make (2 ^ 62 + 1) [[⟨0, true⟩], [⟨0, false⟩]]
    Slice.all [0] = .ok l.slices ∧ (2 ^ 62, 0) ∈ l.pairs ∧ l.size < 0 ∧
      l.id (2 ^ 62) 0 = -2 ^ 63 ∧ l.owner (l.id (2 ^ 62) 0) = (-2 ^ 62, 0) := by
  intro l
  refine ⟨rfl, ⟨⟨by decide, by decide⟩, ⟨by decide, by decide⟩⟩, by decide, by decide, by decide⟩

end Layout
end SymbolicLtl
