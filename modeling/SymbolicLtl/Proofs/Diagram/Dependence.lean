import Mathlib.Tactic.Common
import SymbolicLtl.Diagram.Basic

/-! The variables that a function depends on, and what quantification and renaming do to them. -/
namespace SymbolicLtl

namespace Tree

theorem mem_union {v : Nat} (xs ys : List Nat) : v ∈ union xs ys ↔ v ∈ xs ∨ v ∈ ys := by
  induction xs generalizing ys with
  | nil => simp [union]
  | cons x xs ih =>
    have hgo : ∀ ys, v ∈ union.go x (union xs) ys ↔ v ∈ x :: xs ∨ v ∈ ys := by
      intro ys
      induction ys with
      | nil => simp [union.go, ih]
      | cons y ys ihy =>
        simp only [union.go]
        split_ifs with hxy hyx
        · simp only [List.mem_cons, ih]
          tauto
        · simp only [List.mem_cons, ihy]
          tauto
        · have he : x = y := by omega
          simp only [List.mem_cons, ih, he]
          tauto
    exact hgo ys

theorem bounds_of_mem_support {k n v : Nat} {t : Tree} (ht : t.Reduced k n)
    (hv : v ∈ t.support) : k ≤ v ∧ v < n := by
  induction t generalizing k with
  | leaf b => cases hv
  | node w l h ihl ihh =>
    obtain ⟨hkw, hwn, _, hl, hh⟩ := ht
    rw [support, List.mem_cons, mem_union] at hv
    rcases hv with rfl | hv | hv
    · exact ⟨hkw, hwn⟩
    · have := ihl hl hv
      omega
    · have := ihh hh hv
      omega

theorem pairwise_union {xs ys : List Nat} (hxs : xs.Pairwise (· < ·)) (hys : ys.Pairwise (· < ·)) :
    (union xs ys).Pairwise (· < ·) := by
  induction xs generalizing ys with
  | nil => exact hys
  | cons x xs ih =>
    obtain ⟨hx, hxs⟩ := List.pairwise_cons.mp hxs
    induction ys with
    | nil =>
      refine List.pairwise_cons.mpr ⟨fun w hw => ?_, ih hxs hys⟩
      exact hx w (by simpa [mem_union] using hw)
    | cons y ys ihy =>
      obtain ⟨hy, hys'⟩ := List.pairwise_cons.mp hys
      simp only [union, union.go]
      split_ifs with hxy hyx
      · refine List.pairwise_cons.mpr ⟨fun w hw => ?_, ih hxs hys⟩
        rcases (mem_union _ _).mp hw with hw | hw
        · exact hx w hw
        · rcases List.mem_cons.mp hw with rfl | hw
          · exact hxy
          · exact Nat.lt_trans hxy (hy w hw)
      · refine List.pairwise_cons.mpr ⟨fun w hw => ?_, ihy hys'⟩
        rcases (mem_union (x :: xs) ys).mp hw with hw | hw
        · rcases List.mem_cons.mp hw with rfl | hw
          · exact hyx
          · exact Nat.lt_trans hyx (hx w hw)
        · exact hy w hw
      · have he : x = y := by omega
        refine List.pairwise_cons.mpr ⟨fun w hw => ?_, ih hxs hys'⟩
        rcases (mem_union _ _).mp hw with hw | hw
        · exact hx w hw
        · exact he ▸ hy w hw

theorem pairwise_support {k n : Nat} {t : Tree} (ht : t.Reduced k n) :
    t.support.Pairwise (· < ·) := by
  induction t generalizing k with
  | leaf b => exact .nil
  | node v l h ihl ihh =>
    obtain ⟨-, -, -, hl, hh⟩ := ht
    refine List.pairwise_cons.mpr ⟨fun w hw => ?_, pairwise_union (ihl hl) (ihh hh)⟩
    rcases (mem_union _ _).mp hw with hw | hw
    · exact (bounds_of_mem_support hl hw).1
    · exact (bounds_of_mem_support hh hw).1

/-- The value is determined by the variables of the tree. -/
theorem eval_congr_support {t : Tree} {ρ σ : Nat → Bool} (h : ∀ v ∈ t.support, ρ v = σ v) :
    t.eval ρ = t.eval σ := by
  induction t with
  | leaf b => rfl
  | node w l r ihl ihr =>
    simp only [support, List.mem_cons, mem_union] at h
    rw [eval_node, eval_node, h w (.inl rfl), ihl fun v hv => h v (.inr (.inl hv)),
      ihr fun v hv => h v (.inr (.inr hv))]

/-- In a reduced tree every variable makes a difference somewhere. -/
theorem exists_eval_update_ne {k n v : Nat} {t : Tree} (ht : t.Reduced k n)
    (hv : v ∈ t.support) : ∃ ρ, t.eval (update ρ v false) ≠ t.eval (update ρ v true) := by
  induction t generalizing k with
  | leaf b => cases hv
  | node w l h ihl ihh =>
    obtain ⟨hkw, hwn, hne, hl, hh⟩ := ht
    rw [support, List.mem_cons, mem_union] at hv
    -- Below the root the assignment found by induction is moved to the right side of the test.
    have hmove : ∀ b : Bool, ∀ t' : Tree, t'.Reduced (w + 1) n → w ≠ v → ∀ ρ c,
        t'.eval (update (update ρ w b) v c) = t'.eval (update ρ v c) := by
      intro b t' ht' hwv ρ c
      refine eval_congr ht' fun x hx _ => ?_
      simp [update, show x ≠ w by omega]
    rcases hv with rfl | hv | hv
    · have hex : ∃ ρ, l.eval ρ ≠ h.eval ρ := by
        by_contra hno
        push Not at hno
        exact hne (eq_of_eval_eq hl hh hno)
      obtain ⟨ρ, hρ⟩ := hex
      refine ⟨ρ, ?_⟩
      have hlv := eval_update hl (Nat.lt_succ_self v) ρ false
      have hhv := eval_update hh (Nat.lt_succ_self v) ρ true
      simpa [update, hlv, hhv] using hρ
    · obtain ⟨ρ, hρ⟩ := ihl hl hv
      have hwv : w ≠ v := by have := (bounds_of_mem_support hl hv).1; omega
      refine ⟨update ρ w false, ?_⟩
      rw [eval_node, eval_node, hmove false l hl hwv, hmove false l hl hwv]
      simpa [update, hwv] using hρ
    · obtain ⟨ρ, hρ⟩ := ihh hh hv
      have hwv : w ≠ v := by have := (bounds_of_mem_support hh hv).1; omega
      refine ⟨update ρ w true, ?_⟩
      rw [eval_node, eval_node, hmove true h hh hwv, hmove true h hh hwv]
      simpa [update, hwv] using hρ

/-- Quantification asks for some values of the chosen variables. -/
theorem eval_exist {k n : Nat} {t : Tree} (ht : t.Reduced k n) (chosen : Nat → Bool)
    (ρ : Nat → Bool) : (t.exist chosen).eval ρ = true ↔
      ∃ σ, (∀ v, chosen v = false → σ v = ρ v) ∧ t.eval σ = true := by
  induction t generalizing k with
  | leaf b => exact ⟨fun h => ⟨ρ, fun _ _ => rfl, h⟩, fun ⟨_, _, h⟩ => h⟩
  | node w l h ihl ihh =>
    obtain ⟨hkw, hwn, hne, hl, hh⟩ := ht
    unfold exist
    split_ifs with hw
    · rw [eval_or, Bool.or_eq_true, ihl hl, ihh hh]
      constructor
      · rintro (⟨σ, hσ, he⟩ | ⟨σ, hσ, he⟩)
        · refine ⟨update σ w false, fun v hv => ?_, ?_⟩
          · rw [← hσ v hv, update, if_neg (by rintro rfl; simp [hw] at hv)]
          · simpa [update, eval_update hl (Nat.lt_succ_self w)] using he
        · refine ⟨update σ w true, fun v hv => ?_, ?_⟩
          · rw [← hσ v hv, update, if_neg (by rintro rfl; simp [hw] at hv)]
          · simpa [update, eval_update hh (Nat.lt_succ_self w)] using he
      · rintro ⟨σ, hσ, he⟩
        rw [eval_node] at he
        split_ifs at he
        · exact .inr ⟨σ, hσ, he⟩
        · exact .inl ⟨σ, hσ, he⟩
    · have hw' : chosen w = false := by simpa using hw
      rw [eval_branch]
      cases hρ : ρ w with
      | false =>
        simp only [Bool.false_eq_true, if_false, ihl hl]
        refine exists_congr fun σ => and_congr_right fun hσ => ?_
        rw [eval_node, hσ w hw', hρ]
        simp
      | true =>
        simp only [if_true, ihh hh]
        refine exists_congr fun σ => and_congr_right fun hσ => ?_
        rw [eval_node, hσ w hw', hρ]
        simp

theorem mentions_eq_false {n v : Nat} {t : Tree} (ht : t.Reduced (v + 1) n) :
    t.mentions v = false := by
  cases t with
  | leaf b => rfl
  | node w l h =>
    have := ht.1
    simp [mentions, show w ≠ v by omega, show ¬ w < v by omega]

/-- Renaming succeeds where it keeps the order of the variables. -/
theorem exists_rename {k m n b : Nat} {image : Nat → Nat} {t : Tree} (ht : t.Reduced k m)
    (hn : ∀ v ∈ t.support, image v < n) (hb : ∀ v ∈ t.support, b ≤ image v)
    (hmono : ∀ v ∈ t.support, ∀ w ∈ t.support, v < w → image v < image w) :
    ∃ t', t.rename image = some t' ∧ t'.Reduced b n := by
  induction t generalizing k b with
  | leaf c => exact ⟨leaf c, rfl, trivial⟩
  | node v l h ihl ihh =>
    obtain ⟨hkv, hvm, _, hl, hh⟩ := ht
    simp only [support, List.mem_cons, mem_union] at hn hb hmono
    obtain ⟨l', hl', hlr⟩ := ihl (b := image v + 1) hl (fun w hw => hn w (.inr (.inl hw)))
      (fun w hw => hmono v (.inl rfl) w (.inr (.inl hw)) (bounds_of_mem_support hl hw).1)
      (fun w hw x hx => hmono w (.inr (.inl hw)) x (.inr (.inl hx)))
    obtain ⟨h', hh', hhr⟩ := ihh (b := image v + 1) hh (fun w hw => hn w (.inr (.inr hw)))
      (fun w hw => hmono v (.inl rfl) w (.inr (.inr hw)) (bounds_of_mem_support hh hw).1)
      (fun w hw x hx => hmono w (.inr (.inr hw)) x (.inr (.inr hx)))
    refine ⟨select (image v) l' h', ?_, ?_⟩
    · simp [rename, hl', hh', mentions_eq_false hlr, mentions_eq_false hhr]
    · have hs := Reduced.select (Nat.le_refl (image v)) (hn v (.inl rfl))
        (hlr.mono (Nat.le_succ _)) (hhr.mono (Nat.le_succ _))
      exact hs.mono (hb v (.inl rfl))

end Tree

namespace Diagram

variable {n : Nat}

/-- The value changes with the variable, the others being held fixed at some assignment. -/
def DependsOn (a : Diagram n) (v : Nat) : Prop :=
  ∃ ρ : Nat → Bool, a.eval (Tree.update ρ v false) ≠ a.eval (Tree.update ρ v true)

theorem dependsOn_of_mem_support {a : Diagram n} {v : Nat} (hv : v ∈ a.support) : a.DependsOn v := by
  rw [support_eq] at hv
  exact Tree.exists_eval_update_ne a.reduced hv

/-- The value depends on no variables but those with a property. -/
def DependsOnly (a : Diagram n) (P : Nat → Prop) : Prop :=
  ∀ ρ σ : Nat → Bool, (∀ v, P v → ρ v = σ v) → a.eval ρ = a.eval σ

namespace DependsOnly

variable {P Q : Nat → Prop} {a b : Diagram n}

theorem mono (h : a.DependsOnly P) (hPQ : ∀ v, P v → Q v) : a.DependsOnly Q :=
  fun ρ σ hρ => h ρ σ fun v hv => hρ v (hPQ v hv)

theorem const (c : Bool) : (Diagram.const c : Diagram n).DependsOnly P := fun _ _ _ => rfl

theorem combine (f : Bool → Bool → Bool) (ha : a.DependsOnly P) (hb : b.DependsOnly P) :
    (Diagram.combine f a b).DependsOnly P := by
  intro ρ σ h
  rw [eval_combine, eval_combine, ha ρ σ h, hb ρ σ h]

theorem and (ha : a.DependsOnly P) (hb : b.DependsOnly P) : (a.and b).DependsOnly P :=
  combine _ ha hb

theorem or (ha : a.DependsOnly P) (hb : b.DependsOnly P) : (a.or b).DependsOnly P :=
  combine _ ha hb

theorem diff (ha : a.DependsOnly P) (hb : b.DependsOnly P) : (a.diff b).DependsOnly P :=
  combine _ ha hb

theorem literal {i : Fin n} (hi : P i) (c : Bool) : (Diagram.literal i c).DependsOnly P := by
  intro ρ σ h
  rw [eval_literal, eval_literal, h i hi]

theorem of_dependsOn (ha : a.DependsOnly P) {v : Nat} (hv : a.DependsOn v) : P v := by
  obtain ⟨ρ, hρ⟩ := hv
  by_contra hP
  refine hρ (ha _ _ fun w hw => ?_)
  have hne : w ≠ v := fun e => hP (e ▸ hw)
  simp [Tree.update, hne]

theorem of_mem_support (ha : a.DependsOnly P) {v : Nat} (hv : v ∈ a.support) : P v :=
  ha.of_dependsOn (dependsOn_of_mem_support hv)

end DependsOnly

theorem dependsOnly_support (a : Diagram n) : a.DependsOnly (· ∈ a.support) := by
  intro ρ σ h
  refine Tree.eval_congr_support fun v hv => h v ?_
  rw [support_eq]
  exact hv

/-- The variables that are tested are those that the value depends on. -/
theorem mem_support_iff {a : Diagram n} {v : Nat} : v ∈ a.support ↔ a.DependsOn v :=
  ⟨dependsOn_of_mem_support, a.dependsOnly_support.of_dependsOn⟩

theorem pairwise_support (a : Diagram n) : a.support.Pairwise (· < ·) := by
  rw [support_eq]
  exact Tree.pairwise_support a.reduced

theorem isFalse_iff (a : Diagram n) : a.isFalse = true ↔ ∀ ρ, a.eval ρ = false := by
  rw [isFalse, isConst_iff]
  refine ⟨fun h ρ => by rw [h, eval_const], fun h => ext fun ρ => ?_⟩
  rw [h ρ, eval_const]

theorem isFalse_eq_false {d : Diagram n} {ρ : Nat → Bool} (h : d.eval ρ = true) :
    d.isFalse = false := by
  rw [← Bool.not_eq_true, isFalse_iff]
  intro hfalse
  rw [hfalse ρ] at h
  cases h

theorem implies_iff (a b : Diagram n) :
    a.implies b = true ↔ ∀ ρ, a.eval ρ = true → b.eval ρ = true := by
  rw [implies, isFalse_iff]
  refine forall_congr' fun ρ => ?_
  rw [eval_diff]
  cases a.eval ρ <;> cases b.eval ρ <;> simp

theorem eval_exist (vars : List Nat) (a : Diagram n) (ρ : Nat → Bool) :
    (a.exist vars).eval ρ = true ↔ ∃ σ, (∀ v, v ∉ vars → σ v = ρ v) ∧ a.eval σ = true := by
  rw [eval, tree_exist, Tree.eval_exist a.reduced]
  simp only [List.contains_eq_mem, decide_eq_false_iff_not]
  rfl

theorem eval_andExist (vars : List Nat) (a b : Diagram n) (ρ : Nat → Bool) :
    (andExist vars a b).eval ρ = true ↔
      ∃ σ, (∀ v, v ∉ vars → σ v = ρ v) ∧ a.eval σ = true ∧ b.eval σ = true := by
  unfold andExist
  split_ifs with h
  · rw [List.isEmpty_iff] at h
    subst h
    rw [eval_and, Bool.and_eq_true]
    constructor
    · intro he
      exact ⟨ρ, fun _ _ => rfl, he⟩
    · rintro ⟨σ, hσ, he⟩
      rwa [funext fun v => hσ v (by simp)] at he
  · simp only [eval_exist, eval_and, Bool.and_eq_true]

theorem exists_rename {r : Renaming n} {a : Diagram n} {P : Nat → Prop} (ha : a.DependsOnly P)
    (hmono : ∀ v w, P v → P w → v < w → r.image v < r.image w) : ∃ b, a.rename r = .ok b := by
  have hP : ∀ v ∈ a.tree.support, P v := fun v hv => ha.of_mem_support (by rwa [support_eq])
  obtain ⟨t, ht, _⟩ := Tree.exists_rename (b := 0) a.reduced
    (fun v hv => r.bounded v (Tree.bounds_of_mem_support a.reduced hv).2) (fun _ _ => Nat.zero_le _)
    fun v hv w hw => hmono v w (hP v hv) (hP w hw)
  have hval : (Tree.Shared.rename r.image a.tree).val = some t :=
    (Tree.Shared.rename r.image a.tree).property.trans ht
  unfold rename
  split
  · exact ⟨_, rfl⟩
  · next hnone => simp [hval] at hnone

/-- The cube of known variables holds where its literals do, and depends on nothing else. -/
theorem exists_cube {lits : List Literal} (h : ∀ l ∈ lits, 0 ≤ l.var ∧ l.var < n) :
    ∃ d : Diagram n, cube lits = .ok d ∧
      (∀ ρ, d.eval ρ = true ↔ ∀ l ∈ lits, ρ l.var.toNat = l.positive) ∧
      ∀ P : Nat → Prop, (∀ l ∈ lits, P l.var.toNat) → d.DependsOnly P := by
  suffices hacc : ∀ acc : Diagram n, ∃ d : Diagram n,
      lits.foldlM (fun acc lit => do
        let i ← checkVar n lit.var
        return acc.and (literal i lit.positive)) acc = Except.ok d ∧
      (∀ ρ, d.eval ρ = true ↔ acc.eval ρ = true ∧ ∀ l ∈ lits, ρ l.var.toNat = l.positive) ∧
      ∀ P : Nat → Prop, acc.DependsOnly P → (∀ l ∈ lits, P l.var.toNat) → d.DependsOnly P by
    obtain ⟨d, hd, heval, hdepends⟩ := hacc (const true)
    exact ⟨d, hd, by simpa using heval, fun P => hdepends P (.const true)⟩
  induction lits with
  | nil =>
    intro acc
    exact ⟨acc, rfl, by simp, fun P hacc _ => hacc⟩
  | cons l lits ih =>
    intro acc
    obtain ⟨hl, hlits⟩ := List.forall_mem_cons.mp h
    let i : Fin n := ⟨l.var.toNat, by omega⟩
    have hcheck : checkVar n l.var = .ok i := dif_pos hl
    obtain ⟨d, hd, heval, hdepends⟩ := ih hlits (acc.and (literal i l.positive))
    refine ⟨d, ?_, fun ρ => ?_, fun P hacc hP => ?_⟩
    · rw [List.foldlM_cons, hcheck]
      exact hd
    · rw [heval, eval_and, eval_literal, Bool.and_eq_true, beq_iff_eq, and_assoc]
      simp only [List.forall_mem_cons]
      rfl
    · obtain ⟨hPl, hPlits⟩ := List.forall_mem_cons.mp hP
      exact hdepends P (hacc.and (.literal hPl _)) hPlits

/-- A variable that is not one of the known ones is no literal of a cube. -/
theorem bounds_of_cube {lits : List Literal} {d : Diagram n} (h : cube lits = .ok d) :
    ∀ l ∈ lits, 0 ≤ l.var ∧ l.var < n := by
  unfold cube at h
  generalize const true = acc at h
  induction lits generalizing acc with
  | nil =>
    intro l hl
    cases hl
  | cons l lits ih =>
    rw [List.foldlM_cons] at h
    by_cases hl : 0 ≤ l.var ∧ l.var < n
    · rw [checkVar, dif_pos hl] at h
      exact List.forall_mem_cons.mpr ⟨hl, ih _ h⟩
    · rw [checkVar, dif_neg hl] at h
      cases h

end Diagram
end SymbolicLtl
