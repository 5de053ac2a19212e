import Mathlib.Data.List.Nodup
import SymbolicLtl.Model.Counter
import SymbolicLtl.Proofs.Formula.Spacing
import SymbolicLtl.Proofs.Model.Meaning
import SymbolicLtl.Proofs.Relation.States

/-!
What the formulas of a counter say. They are texts that grow with the width; each is read as a chain of
conjunctions, and together they say that a bit changes exactly when all lower ones are set.
-/
namespace SymbolicLtl

namespace Formula

def conjunction (f : Nat → Formula) : Nat → Formula
  | 0 => f 0
  | k + 1 => .binary .and (conjunction f k) (f (k + 1))

variable {f : Nat → Formula} {k : Nat}

theorem eval_conjunction {current next : String → Bool} :
    (conjunction f k).eval current next = true ↔ ∀ i ≤ k, (f i).eval current next = true := by
  induction k with
  | zero => simp [conjunction]
  | succ k ih =>
    rw [conjunction, eval, Connective.eval, Bool.and_eq_true, ih]
    simp only [Nat.le_succ_iff, or_imp, forall_and, forall_eq]

theorem exists_mem_names {x : String} (h : x ∈ (conjunction f k).names) :
    ∃ i ≤ k, x ∈ (f i).names := by
  induction k with
  | zero => exact ⟨0, Nat.le_refl 0, h⟩
  | succ k ih =>
    rcases List.mem_append.mp h with h | h
    · obtain ⟨i, hi, hx⟩ := ih h
      exact ⟨i, Nat.le_succ_of_le hi, hx⟩
    · exact ⟨k + 1, Nat.le_refl _, h⟩

theorem hasNext_conjunction (h : ∀ i, (f i).hasNext = false) : (conjunction f k).hasNext = false := by
  induction k with
  | zero => exact h 0
  | succ k ih => rw [conjunction, hasNext, ih, h, Bool.or_false]

/-- Texts joined by the sign of the conjunction are read from the left. -/
theorem yields_conjunction {text : Nat → String} (h : ∀ i, Yields .unary (f i) (text i).toList)
    (k : Nat) : Yields (.chain .and) (conjunction f k)
      (" & ".intercalate ((List.range (k + 1)).map text)).toList := by
  induction k with
  | zero =>
    have hsingle : Yields (.chain .and) (f 0) (text 0).toList :=
      (h 0).mono fun _ _ hderives => .single hderives
    simpa [conjunction] using hsingle
  | succ k ih =>
    have hjoined := ih.joined (l := .chain .and) (h (k + 1)) (Derives.left (by simp))
    rw [List.range_succ, List.map_append, String.intercalate_append_of_ne_nil (by simp) (by simp)]
    simpa [conjunction, Connective.sign] using hjoined

end Formula

namespace Model

theorem toList_counterBit (i : Nat) : (counterBit i).toList = 'x' :: Nat.toDigits 10 i := by
  simp [counterBit]

theorem counterBit_injective : Function.Injective counterBit := by
  intro i j h
  have htext := congrArg String.toList h
  rw [toList_counterBit, toList_counterBit, List.cons.injEq] at htext
  rw [← Nat.ofDigitChars_ten_toDigits (n := i), htext.2, Nat.ofDigitChars_ten_toDigits]

/-- A text with another first letter is not the name of a bit. -/
theorem counterBit_ne {x : String} (h : x.toList.head? ≠ some 'x') (i : Nat) : counterBit i ≠ x := by
  rintro rfl
  rw [toList_counterBit] at h
  exact h rfl

theorem isNameChar_of_isDigit {c : Char} (h : c.isDigit = true) : Token.isNameChar c = true := by
  have hbounds : 48 ≤ c.toNat ∧ c.toNat ≤ 57 := by
    simpa [Char.isDigit, UInt32.le_iff_toNat_le] using h
  have hdigit : Text.isDigit c = true := by
    apply List.any_eq_true.mpr
    exact ⟨(0x30, 0x39), List.mem_cons_self, by simpa using hbounds⟩
  rw [Token.isNameChar, hdigit, Bool.or_true]

theorem isIdentifier_counterBit (i : Nat) : Token.isIdentifier (counterBit i) = true := by
  have hbit : counterBit i = String.ofList ('x' :: Nat.toDigits 10 i) := by
    rw [← toList_counterBit, String.ofList_toList]
  have hword : Token.wordKind (counterBit i) = .name := by
    rw [Token.wordKind_eq_name]
    simp only [List.all_cons, List.all_nil, Bool.and_true, Bool.and_eq_true, bne_iff_ne]
    exact ⟨counterBit_ne (by decide) i, counterBit_ne (by decide) i, counterBit_ne (by decide) i,
      counterBit_ne (by decide) i⟩
  rw [hbit, Token.isIdentifier_ofList, ← hbit]
  refine ⟨by decide +kernel, ?_, hword⟩
  intro d hd
  exact isNameChar_of_isDigit (Nat.isDigit_of_mem_toDigits (by decide) (by decide) hd)

theorem nodup_bits (bits : Nat) : ((List.range bits).map counterBit).Nodup :=
  List.nodup_range.map counterBit_injective

theorem mem_vars_counter {bits : Nat} {x : String} :
    x ∈ (counter bits).vars ↔ ∃ i < bits, x = counterBit i := by
  simp [counter, eq_comm]

theorem getElem?_vars_counter {bits i : Nat} {x : String} :
    (counter bits).vars[i]? = some x ↔ i < bits ∧ x = counterBit i := by
  simp only [counter, List.getElem?_map, Option.map_eq_some_iff, List.getElem?_eq_some_iff,
    List.length_range, List.getElem_range]
  constructor
  · rintro ⟨j, ⟨hi, rfl⟩, rfl⟩
    exact ⟨hi, rfl⟩
  · rintro ⟨hi, rfl⟩
    exact ⟨i, ⟨hi, rfl⟩, rfl⟩

theorem idxOf_counterBit {bits i : Nat} (hi : i < bits) :
    (counter bits).vars.idxOf (counterBit i) = i := by
  obtain ⟨hlt, hget⟩ := List.getElem?_eq_some_iff.mp (getElem?_vars_counter.mpr ⟨hi, rfl⟩)
  rw [← hget]
  exact (nodup_bits bits).idxOf_getElem i hlt

theorem lookup_counter {bits i : Nat} (hi : i < bits) :
    (counter bits).next.lookup (counterBit i) = some (counterNext i) := by
  rw [lookup_eq_some_iff_mem]
  · exact List.mem_map.mpr ⟨i, List.mem_range.mpr hi, rfl⟩
  · rw [counter, List.map_map]
    exact nodup_bits bits

theorem checkNames_eq_ok {seen l : List String} (hnames : ∀ x ∈ l, x ≠ "" ∧ x ≠ "next")
    (hnodup : l.Nodup) (hseen : ∀ x ∈ l, x ∉ seen) : checkNames seen l = .ok () := by
  induction l generalizing seen with
  | nil => rfl
  | cons x l ih =>
    rw [List.forall_mem_cons] at hnames hseen
    rw [List.nodup_cons] at hnodup
    rw [checkNames, if_neg (by simpa using hnames.1), if_neg hseen.1]
    apply ih hnames.2 hnodup.2
    intro y hy hmem
    rcases List.mem_cons.mp hmem with rfl | hmem
    · exact hnodup.1 hy
    · exact hseen.2 y hy hmem

theorem validate_counter {bits : Nat} (hbits : 1 ≤ bits) : (counter bits).validate = .ok () := by
  have hnames : checkNames [] (counter bits).vars = .ok () := by
    apply checkNames_eq_ok _ (nodup_bits bits) (by simp)
    intro x hx
    obtain ⟨i, -, rfl⟩ := mem_vars_counter.mp hx
    exact ⟨counterBit_ne (by decide) i, counterBit_ne (by decide) i⟩
  have hempty : (counter bits).vars.isEmpty = false := by
    simp [counter]
    omega
  have hfind : ((counter bits).next.find? fun e => !(counter bits).vars.contains e.1) = none := by
    rw [List.find?_eq_none]
    intro e he
    obtain ⟨i, hi, rfl⟩ := List.mem_map.mp he
    simpa using mem_vars_counter.mpr ⟨i, List.mem_range.mp hi, rfl⟩
  unfold validate
  rw [hempty, hnames, hfind]
  rfl

def lowBits (k : Nat) : Formula := .conjunction (fun i => .ident (counterBit i)) k

def lowZeros (k : Nat) : Formula := .conjunction (fun i => .not (.ident (counterBit i))) k

def successor : Nat → Formula
  | 0 => .not (.ident (counterBit 0))
  | i + 1 => .binary .xor (.ident (counterBit (i + 1))) (lowBits i)

theorem yields_counterBit (i : Nat) :
    Formula.Yields .unary (.ident (counterBit i)) (counterBit i).toList :=
  Formula.yields_ident (isIdentifier_counterBit i)

theorem yields_allSet (k : Nat) :
    Formula.Yields (.chain .and) (lowBits k) (allSet (k + 1)).toList :=
  Formula.yields_conjunction yields_counterBit k

theorem parse_allSet (k : Nat) : Formula.parse (allSet (k + 1)) = .ok (lowBits k) :=
  Formula.parse_of_yields (yields_allSet k) fun _ _ => Formula.Derives.of_chain

theorem parse_init_counter (k : Nat) : Formula.parse (counter (k + 1)).init = .ok (lowZeros k) := by
  refine Formula.parse_of_yields (Formula.yields_conjunction (fun i => ?_) k) fun _ _ =>
    Formula.Derives.of_chain
  simpa using (yields_counterBit i).not

theorem parse_counterNext (i : Nat) : Formula.parse (counterNext i) = .ok (successor i) := by
  cases i with
  | zero =>
    refine Formula.parse_of_yields (n := .unary) ?_ fun _ _ h => h.of_unary (by simp)
    simpa [counterNext, successor] using (yields_counterBit 0).not
  | succ i =>
    refine Formula.parse_of_yields (n := .chain .xor) ?_ fun _ _ => Formula.Derives.of_chain
    have hlow := ((yields_allSet i).mono fun _ _ => Formula.Derives.of_chain).parens
    have hbinary := (yields_counterBit (i + 1)).binary .xor hlow
    simpa [counterNext, successor, Connective.sign] using hbinary

/-- A formula over variables has no abbreviations. -/
theorem expands_of_names {m : Model} {f : Formula} (h : ∀ x ∈ f.names, x ∈ m.vars) (k : Nat) :
    m.Expands k f f := by
  induction f with
  | const v => exact .const v
  | ident x => exact .declared (h x (by simp [Formula.names]))
  | next x => exact .next (h x (by simp [Formula.names]))
  | not a ih => exact .not (ih h)
  | binary op a b iha ihb =>
    exact .binary op (iha fun x hx => h x (List.mem_append_left _ hx))
      (ihb fun x hx => h x (List.mem_append_right _ hx))

section Width

variable {bits : Nat}

theorem expands_bits {f : Nat → Formula} (hf : ∀ i, (f i).names = [counterBit i]) {k : Nat}
    (hk : k < bits) (depth : Nat) :
    (counter bits).Expands depth (.conjunction f k) (.conjunction f k) := by
  apply expands_of_names
  intro x hx
  obtain ⟨i, hi, hx⟩ := Formula.exists_mem_names hx
  rw [hf, List.mem_singleton] at hx
  exact mem_vars_counter.mpr ⟨i, by omega, hx⟩

theorem expands_lowBits {k : Nat} (hk : k < bits) (depth : Nat) :
    (counter bits).Expands depth (lowBits k) (lowBits k) :=
  expands_bits (fun _ => rfl) hk depth

theorem expands_lowZeros {k : Nat} (hk : k < bits) (depth : Nat) :
    (counter bits).Expands depth (lowZeros k) (lowZeros k) :=
  expands_bits (fun _ => rfl) hk depth

theorem expands_successor {i : Nat} (hi : i < bits) :
    (counter bits).Expands 0 (successor i) (successor i) := by
  have hbit : (counter bits).Expands 0 (.ident (counterBit i)) (.ident (counterBit i)) :=
    .declared (mem_vars_counter.mpr ⟨i, hi, rfl⟩)
  cases i with
  | zero => exact .not hbit
  | succ i => exact .binary .xor hbit (expands_lowBits (by omega) 0)

theorem expands_max (k : Nat) : (counter (k + 1)).Expands 1 (.ident "max") (lowBits k) :=
  .defined List.mem_cons_self (parse_allSet k) (expands_lowBits (Nat.lt_succ_self k) 0)

theorem parse_max : Formula.parse "max" = .ok (.ident "max") :=
  Formula.parse_render (f := .ident "max") (by decide +kernel)

theorem buildable_counter (k : Nat) : (counter (k + 1)).Buildable where
  names := by
    refine List.nodup_append.mpr ⟨nodup_bits (k + 1), by simp [counter], ?_⟩
    intro x hx y hy
    obtain ⟨i, -, rfl⟩ := mem_vars_counter.mp hx
    obtain rfl : y = "max" := by simpa [counter] using hy
    exact counterBit_ne (by decide) i
  defines := by
    intro d hd
    obtain rfl : d = ("max", allSet (k + 1)) := by simpa [counter] using hd
    exact ⟨_, parse_allSet k⟩
  init := by
    intro _
    exact ⟨lowZeros k, parse_init_counter k, Formula.hasNext_conjunction fun _ => rfl, 0, _,
      expands_lowZeros (Nat.lt_succ_self k) 0⟩
  transitions := by
    refine ⟨?_, by simp [counter]⟩
    intro x hx text hlookup
    obtain ⟨i, hi, rfl⟩ := mem_vars_counter.mp hx
    rw [lookup_counter hi] at hlookup
    cases hlookup
    exact ⟨_, 0, _, parse_counterNext i, expands_successor hi⟩

theorem currentValue_counterBit {i : Nat} (hi : i < bits) (σ : Nat → Bool) :
    (counter bits).currentValue σ (counterBit i) = σ (currentVar i) := by
  rw [currentValue, idxOf_counterBit hi]

/-- A conjunction of one statement about each bit. -/
theorem eval_bits {f : Nat → Formula} {k : Nat} (hk : k < bits) {σ : Nat → Bool}
    {next : String → Bool} {b : Bool}
    (hf : ∀ i < bits, (f i).eval ((counter bits).currentValue σ) next = true ↔
      σ (currentVar i) = b) :
    (Formula.conjunction f k).eval ((counter bits).currentValue σ) next = true ↔
      ∀ i < k + 1, σ (currentVar i) = b := by
  rw [Formula.eval_conjunction]
  simp only [Nat.lt_succ_iff]
  exact forall_congr' fun i => imp_congr_right fun hi => hf i (by omega)

theorem eval_lowBits {k : Nat} (hk : k < bits) (σ : Nat → Bool) (next : String → Bool) :
    (lowBits k).eval ((counter bits).currentValue σ) next = true ↔
      ∀ i < k + 1, σ (currentVar i) = true := by
  apply eval_bits hk
  intro i hi
  rw [Formula.eval, currentValue_counterBit hi]

theorem eval_lowZeros {k : Nat} (hk : k < bits) (σ : Nat → Bool) (next : String → Bool) :
    (lowZeros k).eval ((counter bits).currentValue σ) next = true ↔
      ∀ i < k + 1, σ (currentVar i) = false := by
  apply eval_bits hk
  intro i hi
  rw [Formula.eval, Formula.eval, currentValue_counterBit hi, Bool.not_eq_true']

/-- A bit changes when all lower ones are set. -/
theorem eval_successor {i : Nat} (hi : i < bits) (σ : Nat → Bool) (next : String → Bool) :
    (successor i).eval ((counter bits).currentValue σ) next =
      (σ (currentVar i) != decide (∀ j < i, σ (currentVar j) = true)) := by
  cases i with
  | zero =>
    rw [successor, Formula.eval, Formula.eval, currentValue_counterBit hi]
    simp
  | succ i =>
    have hlow : (lowBits i).eval ((counter bits).currentValue σ) next =
        decide (∀ j < i + 1, σ (currentVar j) = true) := by
      rw [Bool.eq_iff_iff, eval_lowBits (by omega), decide_eq_true_eq]
    rw [successor, Formula.eval, Formula.eval, hlow, currentValue_counterBit hi]
    rfl

theorem allows_counter {s : Scope} (hs : (counter bits).Resolves s) {σ : Nat → Bool} :
    (counter bits).Allows σ ↔ ∀ i < bits, σ (nextVar i) =
      (σ (currentVar i) != decide (∀ j < i, σ (currentVar j) = true)) := by
  have hyields : ∀ i < bits, ∀ v, (counter bits).Yields (counterNext i) σ v ↔
      (σ (currentVar i) != decide (∀ j < i, σ (currentVar j) = true)) = v := by
    intro i hi v
    rw [yields_iff_of_expands hs (parse_counterNext i) (expands_successor hi), eval_successor hi]
  constructor
  · intro h i hi
    have hvalue := h.next i _ _ (getElem?_vars_counter.mpr ⟨hi, rfl⟩) (lookup_counter hi)
    exact ((hyields i hi _).mp hvalue).symm
  · intro h
    refine ⟨?_, by simp [counter]⟩
    intro i x text hx hlookup
    obtain ⟨hi, rfl⟩ := getElem?_vars_counter.mp hx
    rw [lookup_counter hi] at hlookup
    cases hlookup
    exact (hyields i hi _).mpr (h i hi).symm

/-- The transition relation of a counter, with its initial states and the states of its abbreviation. -/
structure Counts (bits : Nat) {n : Nat} (r : Relation n) (s : Scope) : Prop where
  numVars : r.numVars = bits
  parts_ne_nil : r.parts ≠ []
  init : ∀ σ, r.init.eval σ = true ↔ ∀ i < bits, σ (currentVar i) = false
  holds : ∀ σ, r.Holds σ ↔ ∀ i < bits, σ (nextVar i) =
    (σ (currentVar i) != decide (∀ j < i, σ (currentVar j) = true))
  max : ∃ max : Diagram n, s.compileText "max" = .ok max ∧
    ∀ σ, max.eval σ = true ↔ ∀ i < bits, σ (currentVar i) = true

theorem exists_counts (hbits : 1 ≤ bits) {n : Nat} (hn : 2 * bits ≤ n) {method : Method}
    (hmethod : ∀ code, method ≠ .other code) :
    ∃ (r : Relation n) (s : Scope), (counter bits).build n method = .ok (r, s) ∧
      Counts bits r s := by
  obtain ⟨k, rfl⟩ : ∃ k, bits = k + 1 := ⟨bits - 1, by omega⟩
  have hvarnum : (counter (k + 1)).varnum ≤ n := by simpa [varnum, counter] using hn
  obtain ⟨⟨r, s⟩, hbuild⟩ := (exists_build_iff hvarnum hmethod).mpr (buildable_counter k)
  obtain ⟨hscope, init, cs, -, -, hmake⟩ := build_eq_ok.mp hbuild
  obtain ⟨hvars, hinit, hholds⟩ := meaning_of_build hvarnum hbuild
  have hs := resolves hscope
  refine ⟨r, s, hbuild, by simpa [counter] using hvars, Relation.parts_ne_nil hmake, ?_, ?_, ?_⟩
  · intro σ
    have hzeros := expands_lowZeros (Nat.lt_succ_self k) 0
    have hne : (counter (k + 1)).init ≠ "" := by
      intro hempty
      have hparse := parse_init_counter k
      rw [hempty] at hparse
      exact Formula.parse_nil_ne_ok _ hparse
    rw [hinit, or_iff_right hne, yields_iff_of_expands hs (parse_init_counter k) hzeros]
    exact eval_lowZeros (Nat.lt_succ_self k) σ _
  · intro σ
    rw [hholds, allows_counter hs]
  · obtain ⟨d, hd⟩ := (hs.exists_compileText_iff hvarnum).mpr ⟨_, 1, _, parse_max, expands_max k⟩
    refine ⟨d, hd, fun σ => ?_⟩
    rw [← hs.yields_iff_of_compileText hvarnum hd, yields_iff_of_expands hs parse_max (expands_max k)]
    exact eval_lowBits (Nat.lt_succ_self k) σ _

end Width

end Model
end SymbolicLtl
