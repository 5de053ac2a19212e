import SymbolicLtl.Network.Worker
import SymbolicLtl.Proofs.Reachability.States

/-!
The slices given by all values of some variables cover the state space: every assignment lies in the
cube of one of them.
-/
namespace SymbolicLtl

def Slice.Holds (s : Slice) (ρ : Nat → Bool) : Prop := ∀ l ∈ s, ρ l.var.toNat = l.positive

theorem Layout.slices_make {states : Int} {slices : List Slice} (h : slices ≠ []) :
    (make states slices).slices = slices := by
  cases slices with
  | nil => exact absurd rfl h
  | cons s rest => rfl

namespace Slice

theorem mem_split {slices : List Slice} {v : Int} {s : Slice} :
    s ∈ split slices v ↔ ∃ s₀ ∈ slices, ∃ b, s = s₀ ++ [⟨v, b⟩] := by
  simp only [split, List.mem_flatMap, List.mem_cons, List.not_mem_nil, or_false]
  refine exists_congr fun s₀ => and_congr_right fun _ => ?_
  constructor
  · rintro (h | h)
    · exact ⟨true, h⟩
    · exact ⟨false, h⟩
  · rintro ⟨b, h⟩
    cases b
    · exact .inr h
    · exact .inl h

/-- Splitting adds to each slice the given variables with values of all kinds. -/
theorem mem_foldl_split {vars : List Int} {slices : List Slice} {s : Slice} :
    s ∈ vars.foldl split slices ↔ ∃ s₀ ∈ slices, ∃ t : Slice, t.map Diagram.Literal.var = vars ∧
      s = s₀ ++ t := by
  induction vars generalizing slices with
  | nil => simp
  | cons v vars ih =>
    rw [List.foldl_cons, ih]
    constructor
    · rintro ⟨s₁, hs₁, t, rfl, rfl⟩
      obtain ⟨s₀, hs₀, b, rfl⟩ := mem_split.mp hs₁
      exact ⟨s₀, hs₀, ⟨v, b⟩ :: t, rfl, by simp⟩
    · rintro ⟨s₀, hs₀, t, ht, rfl⟩
      obtain ⟨l, t, rfl, rfl, rfl⟩ := List.map_eq_cons_iff.mp ht
      exact ⟨_, mem_split.mpr ⟨s₀, hs₀, l.positive, rfl⟩, t, rfl, by simp⟩

/-- Variables are refused when one is negative, listed twice or seen before. -/
theorem checkVars_eq_ok_iff {seen vars : List Int} :
    checkVars seen vars = .ok () ↔ vars.Nodup ∧ ∀ v ∈ vars, 0 ≤ v ∧ v ∉ seen := by
  induction vars generalizing seen with
  | nil => simp [checkVars]
  | cons v vars ih =>
    rw [checkVars, List.nodup_cons, List.forall_mem_cons]
    by_cases hneg : v < 0
    · rw [if_pos hneg]
      refine iff_of_false (fun h => by cases h) ?_
      rintro ⟨-, ⟨hpos, -⟩, -⟩
      omega
    · by_cases hseen : v ∈ seen
      · simp [hneg, hseen]
      · simp only [hneg, if_false, List.contains_eq_mem, hseen, decide_false, Bool.false_eq_true, ih,
          List.mem_cons, not_or]
        have hpos : 0 ≤ v := Int.not_lt.mp hneg
        constructor
        · rintro ⟨hnodup, hrest⟩
          exact ⟨⟨fun hv => (hrest v hv).2.1 rfl, hnodup⟩, ⟨hpos, not_false⟩,
            fun w hw => ⟨(hrest w hw).1, (hrest w hw).2.2⟩⟩
        · rintro ⟨⟨hv, hnodup⟩, -, hrest⟩
          refine ⟨hnodup, fun w hw => ⟨(hrest w hw).1, ?_, (hrest w hw).2⟩⟩
          rintro rfl
          exact hv hw

theorem all_eq_ok_iff {vars : List Int} {slices : List Slice} : all vars = .ok slices ↔
    vars.Nodup ∧ (∀ v ∈ vars, 0 ≤ v) ∧ vars.foldl split [[]] = slices := by
  have hcheck := @checkVars_eq_ok_iff [] vars
  simp only [List.not_mem_nil, not_false_eq_true, and_true] at hcheck
  rw [← and_assoc, ← hcheck, all]
  cases checkVars [] vars with
  | error e => simp [bind, Except.bind]
  | ok u => simp [bind, Except.bind, pure, Except.pure]

theorem mem_of_all {vars : List Int} {slices : List Slice} (h : all vars = .ok slices) {s : Slice} :
    s ∈ slices ↔ s.map Diagram.Literal.var = vars := by
  obtain ⟨-, -, rfl⟩ := all_eq_ok_iff.mp h
  simp [mem_foldl_split]

/-- The values that an assignment gives to some variables. -/
def ofAssignment (vars : List Int) (ρ : Nat → Bool) : Slice := vars.map fun v => ⟨v, ρ v.toNat⟩

theorem map_var_ofAssignment (vars : List Int) (ρ : Nat → Bool) :
    (ofAssignment vars ρ).map Diagram.Literal.var = vars := by
  simp [ofAssignment, Function.comp_def]

/-- An assignment lies in one slice over given variables. -/
theorem holds_iff_eq {s : Slice} {ρ : Nat → Bool} :
    s.Holds ρ ↔ s = ofAssignment (s.map Diagram.Literal.var) ρ := by
  induction s with
  | nil => simp [Holds, ofAssignment]
  | cons l s ih =>
    obtain ⟨v, b⟩ := l
    have hcons : Holds (⟨v, b⟩ :: s) ρ ↔ ρ v.toNat = b ∧ Holds s ρ := List.forall_mem_cons
    rw [hcons, ih]
    simp [ofAssignment, eq_comm]

/-- Slices made from the values of current variables, or none at all. -/
def OverCurrent (k : Nat) (slices : List Slice) : Prop :=
  slices = [] ∨ ∃ vars : List Int,
    (∀ v ∈ vars, ∃ i : Fin k, v = currentVar i) ∧ all vars = .ok slices

theorem OverCurrent.layout {k : Nat} {states : Int} {slices : List Slice}
    (h : OverCurrent k slices) :
    (∀ ρ, ∃ s ∈ (Layout.make states slices).slices, s.Holds ρ) ∧
      ∀ s ∈ (Layout.make states slices).slices, ∀ l ∈ s, ∃ i : Fin k, l.var = currentVar i := by
  rcases h with rfl | ⟨vars, hvars, hall⟩
  · simp [Layout.make, Slice.Holds]
  · have hmem := fun s => @mem_of_all vars slices hall s
    have hcover : ∀ ρ, ∃ s ∈ slices, s.Holds ρ := by
      intro ρ
      have hvar := map_var_ofAssignment vars ρ
      exact ⟨_, (hmem _).mpr hvar, holds_iff_eq.mpr (by rw [hvar])⟩
    have hlayout : (Layout.make states slices).slices = slices := by
      obtain ⟨s, hs, -⟩ := hcover fun _ => true
      exact Layout.slices_make (List.ne_nil_of_mem hs)
    rw [hlayout]
    refine ⟨hcover, fun s hs l hl => hvars _ ?_⟩
    rw [← (hmem s).mp hs]
    exact List.mem_map_of_mem hl

/-- The cubes of slices over current values can be made. They are over current values and cover all
assignments. -/
theorem OverCurrent.exists_makeCubes {n k : Nat} {slices : List Slice} (h : OverCurrent k slices)
    (hk : 2 * k ≤ n) (states : Int) :
    ∃ cubes, Network.makeCubes n (Layout.make states slices).slices = .ok cubes ∧
      (∀ ρ, ∃ s, (cubes s).eval ρ = true) ∧ ∀ s, (cubes s).OverCurrent k := by
  obtain ⟨hcover, hvars⟩ := @h.layout _ states
  have hcube : ∀ i : Fin (Layout.make states slices).slices.length, ∃ d : Diagram n,
      Diagram.cube ((Layout.make states slices).slices.get i) = .ok d ∧
      (∀ ρ, d.eval ρ = true ↔ ((Layout.make states slices).slices.get i).Holds ρ) ∧
      d.OverCurrent k := by
    intro i
    have hcurrent := hvars _ (List.get_mem _ i)
    obtain ⟨d, hd, heval, hdepends⟩ :=
      @Diagram.exists_cube n ((Layout.make states slices).slices.get i) fun l hl => by
        obtain ⟨j, hj⟩ := hcurrent l hl
        rw [hj]
        unfold currentVar
        omega
    refine ⟨d, hd, heval, hdepends _ fun l hl => ?_⟩
    obtain ⟨j, hj⟩ := hcurrent l hl
    exact isCurrent_iff.mpr ⟨j, by rw [hj]; rfl⟩
  choose cube hcube heval hover using hcube
  refine ⟨.ofFn cube, ?_, fun ρ => ?_, fun s => ?_⟩
  · exact Family.collect_eq_ok_iff.mpr fun i => by rw [Family.get_ofFn, hcube i]
  · obtain ⟨s, hs, hρ⟩ := hcover ρ
    obtain ⟨i, rfl⟩ := List.get_of_mem hs
    exact ⟨i, by rw [Family.get_ofFn]; exact (heval i ρ).mpr hρ⟩
  · rw [Family.get_ofFn]
    exact hover s

end Slice
end SymbolicLtl
