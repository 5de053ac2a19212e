import SymbolicLtl.Proofs.Diagram.Values

/-!
Sessions with a manager: calls whose operands are the results of earlier calls. Every result is the
function that its call names, and results are told apart exactly as functions are.
-/
namespace SymbolicLtl.Session

inductive BinaryOperation where
  | and
  | or
  | xor
  | imp
  | iff
  | diff
deriving DecidableEq, Repr

namespace BinaryOperation

def apply : BinaryOperation → Bool → Bool → Bool
  | and => (· && ·)
  | or => (· || ·)
  | xor => (· != ·)
  | imp => fun x y => !x || y
  | iff => (· == ·)
  | diff => fun x y => x && !y

def Holds : BinaryOperation → Prop → Prop → Prop
  | and, p, q => p ∧ q
  | or, p, q => p ∨ q
  | xor, p, q => ¬ (p ↔ q)
  | imp, p, q => p → q
  | iff, p, q => p ↔ q
  | diff, p, q => p ∧ ¬ q

theorem apply_eq_true (op : BinaryOperation) (x y : Bool) :
    op.apply x y = true ↔ op.Holds (x = true) (y = true) := by
  cases op <;> cases x <;> cases y <;> simp [apply, Holds]

end BinaryOperation

/-- A call. Operands and sets of variables are given by the numbers of the calls that made them. -/
inductive Call where
  | const (value : Bool)
  | literal (var : Int) (positive : Bool)
  | cube (literals : List Diagram.Literal)
  | varSet (vars : List Int)
  | not (a : Nat)
  | binary (op : BinaryOperation) (a b : Nat)
  | exist (a set : Nat)
  | andExist (set a b : Nat)
deriving DecidableEq, Repr

def operand (values : List Value) (i : Nat) : Except Misuse Value :=
  match values[i]? with
  | some v => .ok v
  | none => .error .badIndex

namespace Call

def perform (m : Manager) (values : List Value) : Call → WorkspaceM Value
  | const b => return m.const b
  | literal i positive => liftM (m.literal i positive)
  | cube literals => liftM (m.cube literals)
  | varSet vars => m.varSet vars
  | not a => do
    let x ← liftM (operand values a)
    return x.not
  | binary op a b => do
    let x ← liftM (operand values a)
    let y ← liftM (operand values b)
    liftM (Value.combine op.apply x y)
  | exist a set => do
    let x ← liftM (operand values a)
    let s ← liftM (operand values set)
    m.exist x s
  | andExist set a b => do
    let s ← liftM (operand values set)
    let x ← liftM (operand values a)
    let y ← liftM (operand values b)
    liftM (Value.andExist m s x y)

/-- The function that a call names, as the assignments where it is true. `holds` gives the functions
of the operands and `listed` the variables of the sets. -/
def Holds (listed : Nat → List Int) (holds : Nat → (Nat → Bool) → Prop) (ρ : Nat → Bool) :
    Call → Prop
  | const b => b = true
  | literal i positive => ρ i.toNat = positive
  | cube literals => ∀ l ∈ literals, ρ l.var.toNat = l.positive
  | varSet vars => ∀ i ∈ vars, ρ i.toNat = true
  | not a => ¬ holds a ρ
  | binary op a b => op.Holds (holds a ρ) (holds b ρ)
  | exist a set => ∃ σ, (∀ v : Nat, (v : Int) ∉ listed set → σ v = ρ v) ∧ holds a σ
  | andExist set a b =>
    ∃ σ, (∀ v : Nat, (v : Int) ∉ listed set → σ v = ρ v) ∧ holds a σ ∧ holds b σ

def sets : Call → List Nat
  | exist _ set | andExist set _ _ => [set]
  | _ => []

def operands : Call → List Nat
  | not a => [a]
  | binary _ a b => [a, b]
  | exist a set => [a, set]
  | andExist set a b => [set, a, b]
  | _ => []

def vars : Call → List Int
  | literal i _ => [i]
  | cube literals => literals.map (·.var)
  | varSet vars => vars
  | _ => []

/-- The operands are results of earlier calls, and the variables are among those of the manager. -/
def Scoped (m : Manager) (k : Nat) (c : Call) : Prop :=
  (∀ i ∈ c.operands, i < k) ∧ ∀ i ∈ c.vars, 0 ≤ i ∧ i < m.varnum

instance (m : Manager) (k : Nat) (c : Call) : Decidable (c.Scoped m k) :=
  inferInstanceAs (Decidable (_ ∧ _))

theorem sets_subset_operands (c : Call) : ∀ s ∈ c.sets, s ∈ c.operands := by
  cases c <;> simp [sets, operands]

end Call

def step (m : Manager) (values : List Value) (c : Call) : WorkspaceM (List Value) := do
  let v ← c.perform m values
  return values ++ [v]

def performAll (m : Manager) (calls : List Call) : WorkspaceM (List Value) :=
  calls.foldlM (step m) []

def listedBy (calls : List Call) (k : Nat) : List Int :=
  match calls[k]? with
  | some (.varSet vars) => vars
  | _ => []

/-- Only sets that were made from lists of variables are quantified. -/
def QuantifiesLists (calls : List Call) : Prop :=
  ∀ c ∈ calls, ∀ s ∈ c.sets, ∃ vars, calls[s]? = some (.varSet vars)

def HoldsAt (values : List Value) (i : Nat) (ρ : Nat → Bool) : Prop :=
  ∃ v, values[i]? = some v ∧ v.diagram.eval ρ = true

variable {m : Manager}

theorem lt_of_operand {values : List Value} {i : Nat} {v : Value} (h : operand values i = .ok v) :
    i < values.length := by
  unfold operand at h
  split at h
  · next u hu => exact (List.getElem?_eq_some_iff.mp hu).1
  · cases h

theorem operand_eq {ds : List (Diagram m.varnum)} {i : Nat} {d : Diagram m.varnum}
    (h : ds[i]? = some d) : operand (ds.map m.value) i = .ok (m.value d) := by
  rw [operand, List.getElem?_map, h]
  rfl

theorem run_operand {ds : List (Diagram m.varnum)} {i : Nat} {d : Diagram m.varnum}
    (h : ds[i]? = some d) (w : Workspace) :
    (liftM (operand (ds.map m.value) i) : WorkspaceM Value).run.run w = (.ok (m.value d), w) := by
  rw [Attempt.run_liftM, operand_eq h]

theorem holdsAt_iff {ds : List (Diagram m.varnum)} {i : Nat} {d : Diagram m.varnum}
    (h : ds[i]? = some d) (ρ : Nat → Bool) :
    HoldsAt (ds.map m.value) i ρ ↔ d.eval ρ = true := by
  rw [HoldsAt, List.getElem?_map, h]
  constructor
  · rintro ⟨v, hv, heval⟩
    cases hv
    exact heval
  · intro heval
    exact ⟨m.value d, rfl, heval⟩

/-- A call that was performed had its operands and its variables. -/
theorem Call.scoped_of_perform {c : Call} {values : List Value} {v : Value} {w w' : Workspace}
    (h : (c.perform m values).run.run w = (.ok v, w')) : c.Scoped m values.length := by
  have hlift : ∀ {α : Type} {x : Except Misuse α} {a : α} {w w' : Workspace},
      (liftM x : WorkspaceM α).run.run w = (.ok a, w') → x = .ok a := by
    intro α x a w w' hx
    rw [Attempt.run_liftM] at hx
    exact (Prod.mk.inj hx).1
  constructor
  · cases c with
    | const b => simp [operands]
    | literal i positive => simp [operands]
    | cube literals => simp [operands]
    | varSet vars => simp [operands]
    | not a =>
      obtain ⟨x, w₁, hx, -⟩ := Attempt.run_bind_eq_ok h
      simp [operands, lt_of_operand (hlift hx)]
    | binary op a b =>
      obtain ⟨x, w₁, hx, h⟩ := Attempt.run_bind_eq_ok h
      obtain ⟨y, w₂, hy, -⟩ := Attempt.run_bind_eq_ok h
      simp [operands, lt_of_operand (hlift hx), lt_of_operand (hlift hy)]
    | exist a set =>
      obtain ⟨x, w₁, hx, h⟩ := Attempt.run_bind_eq_ok h
      obtain ⟨s, w₂, hs, -⟩ := Attempt.run_bind_eq_ok h
      simp [operands, lt_of_operand (hlift hx), lt_of_operand (hlift hs)]
    | andExist set a b =>
      obtain ⟨s, w₁, hs, h⟩ := Attempt.run_bind_eq_ok h
      obtain ⟨x, w₂, hx, h⟩ := Attempt.run_bind_eq_ok h
      obtain ⟨y, w₃, hy, -⟩ := Attempt.run_bind_eq_ok h
      simp [operands, lt_of_operand (hlift hs), lt_of_operand (hlift hx), lt_of_operand (hlift hy)]
  · cases c with
    | literal i positive => simpa [vars] using m.bounds_of_literal (hlift h)
    | cube literals =>
      obtain ⟨d, hd, -⟩ := Attempt.bind_eq_ok.mp (hlift h)
      simpa [vars] using Diagram.bounds_of_cube hd
    | varSet listed =>
      obtain ⟨d, w₁, hd, -⟩ := Attempt.run_bind_eq_ok h
      simpa [vars] using Diagram.bounds_of_cube (hlift hd)
    | const b => simp [vars]
    | not a => simp [vars]
    | binary op a b => simp [vars]
    | exist a set => simp [vars]
    | andExist set a b => simp [vars]

theorem Call.holds_congr {c : Call} {listed listed' : Nat → List Int}
    {holds holds' : Nat → (Nat → Bool) → Prop} (hsets : ∀ s ∈ c.sets, listed s = listed' s)
    (hholds : ∀ i ∈ c.operands, ∀ ρ, holds i ρ ↔ holds' i ρ) (ρ : Nat → Bool) :
    c.Holds listed holds ρ ↔ c.Holds listed' holds' ρ := by
  cases c with
  | const b => exact Iff.rfl
  | literal i positive => exact Iff.rfl
  | cube literals => exact Iff.rfl
  | varSet vars => exact Iff.rfl
  | not a =>
    simp only [operands, List.forall_mem_singleton] at hholds
    simp only [Holds, hholds]
  | binary op a b =>
    simp only [operands, List.forall_mem_cons] at hholds
    simp only [Holds, hholds]
  | exist a set =>
    simp only [sets, operands, List.forall_mem_cons] at hsets hholds
    simp only [Holds, hsets, hholds]
  | andExist set a b =>
    simp only [sets, operands, List.forall_mem_cons] at hsets hholds
    simp only [Holds, hsets, hholds]

/-- The results of calls are the functions that the calls name. -/
structure Kept (m : Manager) (calls : List Call) (ds : List (Diagram m.varnum)) : Prop where
  length_eq : ds.length = calls.length
  inScope : ∀ (k : Nat) (c : Call), calls[k]? = some c → c.Scoped m k
  meaning : ∀ (k : Nat) (c : Call) (d : Diagram m.varnum), calls[k]? = some c → ds[k]? = some d →
    ∀ ρ, d.eval ρ = true ↔ c.Holds (listedBy calls) (HoldsAt (ds.map m.value)) ρ

namespace Kept

variable {calls : List Call} {ds : List (Diagram m.varnum)}

theorem nil : Kept m [] [] where
  length_eq := rfl
  inScope k c h := by cases h
  meaning k c d h := by cases h

theorem holds_concat (h : Kept m calls ds) {c : Call} {k : Nat} (hc : c.Scoped m k)
    (hk : k ≤ calls.length) (c' : Call) (d' : Diagram m.varnum) (ρ : Nat → Bool) :
    c.Holds (listedBy (calls ++ [c'])) (HoldsAt ((ds ++ [d']).map m.value)) ρ ↔
      c.Holds (listedBy calls) (HoldsAt (ds.map m.value)) ρ := by
  have hlen := h.length_eq
  apply Call.holds_congr
  · intro s hs
    have hlt : s < k := hc.1 s (c.sets_subset_operands s hs)
    rw [listedBy, listedBy, List.getElem?_append_left (by omega)]
  · intro i hi σ
    have hlt : i < k := hc.1 i hi
    rw [HoldsAt, HoldsAt, List.getElem?_map, List.getElem?_map,
      List.getElem?_append_left (by omega)]

theorem push (h : Kept m calls ds) {c : Call} (hc : c.Scoped m calls.length) {d : Diagram m.varnum}
    (hd : ∀ ρ, d.eval ρ = true ↔ c.Holds (listedBy calls) (HoldsAt (ds.map m.value)) ρ) :
    Kept m (calls ++ [c]) (ds ++ [d]) := by
  have hlen := h.length_eq
  have hplace : ∀ {k : Nat} {c' : Call}, (calls ++ [c])[k]? = some c' →
      (k < calls.length ∧ calls[k]? = some c') ∨ (k = calls.length ∧ c' = c) := by
    intro k c' hk
    by_cases hlt : k < calls.length
    · rw [List.getElem?_append_left hlt] at hk
      exact .inl ⟨hlt, hk⟩
    · have hklt : k < (calls ++ [c]).length := (List.getElem?_eq_some_iff.mp hk).1
      rw [List.length_append, List.length_singleton] at hklt
      obtain rfl : k = calls.length := by omega
      rw [List.getElem?_concat_length] at hk
      exact .inr ⟨rfl, (Option.some.inj hk).symm⟩
  constructor
  · simp [hlen]
  · intro k c' hk
    rcases hplace hk with ⟨-, hold⟩ | ⟨rfl, rfl⟩
    · exact h.inScope k c' hold
    · exact hc
  · intro k c' d' hk hd' ρ
    rcases hplace hk with ⟨hlt, hold⟩ | ⟨rfl, rfl⟩
    · rw [List.getElem?_append_left (by omega)] at hd'
      rw [h.holds_concat (h.inScope k c' hold) (by omega), h.meaning k c' d' hold hd']
    · rw [← hlen, List.getElem?_concat_length] at hd'
      cases hd'
      rw [h.holds_concat hc (Nat.le_refl _), hd]

theorem mem_highVars (h : Kept m calls ds) {s : Nat} {vars : List Int} {d : Diagram m.varnum}
    (hs : calls[s]? = some (.varSet vars)) (hd : ds[s]? = some d) (v : Nat) :
    v ∈ d.highVars ↔ (v : Int) ∈ vars := by
  refine Diagram.mem_highVars (P := fun v => (v : Int) ∈ vars) (fun ρ => ?_) v
  rw [h.meaning s _ d hs hd]
  constructor
  · intro hall v hv
    exact hall v hv
  · intro hall i hi
    have hbounds := (h.inScope s _ hs).2 i hi
    exact hall i.toNat (by rwa [Int.toNat_of_nonneg hbounds.1])

theorem isFalse_eq_false (h : Kept m calls ds) {s : Nat} {vars : List Int} {d : Diagram m.varnum}
    (hs : calls[s]? = some (.varSet vars)) (hd : ds[s]? = some d) : d.isFalse = false := by
  apply Diagram.isFalse_eq_false (ρ := fun _ => true)
  rw [h.meaning s _ d hs hd]
  intro i _
  rfl

/-- A call with its operands and variables gives the function that it names. -/
theorem perform (h : Kept m calls ds) {w : Workspace} (hw : w.incidentsOf m = []) {c : Call}
    (hc : c.Scoped m calls.length)
    (hsets : ∀ s ∈ c.sets, ∃ vars, calls[s]? = some (.varSet vars)) :
    ∃ d, (c.perform m (ds.map m.value)).run.run w = (.ok (m.value d), w) ∧
      ∀ ρ, d.eval ρ = true ↔ c.Holds (listedBy calls) (HoldsAt (ds.map m.value)) ρ := by
  have hget : ∀ i ∈ c.operands, ∃ d, ds[i]? = some d := by
    intro i hi
    have hlt : i < ds.length := h.length_eq ▸ hc.1 i hi
    exact ⟨_, List.getElem?_eq_getElem hlt⟩
  have hbounds := hc.2
  cases c with
  | const b => exact ⟨.const b, rfl, fun ρ => Iff.rfl⟩
  | literal i positive =>
    have hi : 0 ≤ i ∧ i < m.varnum := hbounds i List.mem_cons_self
    refine ⟨.literal ⟨i.toNat, by omega⟩ positive, ?_, fun ρ => ?_⟩
    · rw [Call.perform, Attempt.run_liftM, m.literal_eq hi positive]
    · rw [Diagram.eval_literal, beq_iff_eq]
      rfl
  | cube literals =>
    obtain ⟨d, hd, heval, -⟩ := @Diagram.exists_cube m.varnum literals
      (by simpa [Call.vars] using hbounds)
    refine ⟨d, ?_, heval⟩
    rw [Call.perform, Attempt.run_liftM, m.cube_eq hd]
  | varSet vars =>
    obtain ⟨d, hd, heval, -⟩ := @Diagram.exists_cube m.varnum
      (vars.map fun v => ⟨v, true⟩) (by simpa [Call.vars] using hbounds)
    refine ⟨d, m.varSet_eq hw hd, fun ρ => ?_⟩
    rw [heval, List.forall_mem_map]
    rfl
  | not a =>
    obtain ⟨x, hx⟩ := hget a List.mem_cons_self
    refine ⟨x.not, ?_, fun ρ => ?_⟩
    · rw [Call.perform, Attempt.run_bind_ok (run_operand hx w)]
      rfl
    · rw [Call.Holds, holdsAt_iff hx, Diagram.eval_not, Bool.not_eq_true', Bool.not_eq_true]
  | binary op a b =>
    obtain ⟨x, hx⟩ := hget a (by simp [Call.operands])
    obtain ⟨y, hy⟩ := hget b (by simp [Call.operands])
    refine ⟨.combine op.apply x y, ?_, fun ρ => ?_⟩
    · rw [Call.perform, Attempt.run_bind_ok (run_operand hx w),
        Attempt.run_bind_ok (run_operand hy w), Attempt.run_liftM, Value.combine_eq]
    · rw [Call.Holds, holdsAt_iff hx, holdsAt_iff hy, Diagram.eval_combine, op.apply_eq_true]
  | exist a set =>
    obtain ⟨x, hx⟩ := hget a (by simp [Call.operands])
    obtain ⟨s, hs⟩ := hget set (by simp [Call.operands])
    obtain ⟨vars, hvars⟩ := hsets set List.mem_cons_self
    refine ⟨x.exist s.highVars, ?_, fun ρ => ?_⟩
    · rw [Call.perform, Attempt.run_bind_ok (run_operand hx w),
        Attempt.run_bind_ok (run_operand hs w), m.exist_eq (h.isFalse_eq_false hvars hs)]
    · simp only [Diagram.eval_exist, Call.Holds, listedBy, hvars, h.mem_highVars hvars hs,
        holdsAt_iff hx]
  | andExist set a b =>
    obtain ⟨s, hs⟩ := hget set (by simp [Call.operands])
    obtain ⟨x, hx⟩ := hget a (by simp [Call.operands])
    obtain ⟨y, hy⟩ := hget b (by simp [Call.operands])
    obtain ⟨vars, hvars⟩ := hsets set List.mem_cons_self
    refine ⟨.andExist s.highVars x y, ?_, fun ρ => ?_⟩
    · rw [Call.perform, Attempt.run_bind_ok (run_operand hs w),
        Attempt.run_bind_ok (run_operand hx w), Attempt.run_bind_ok (run_operand hy w),
        Attempt.run_liftM, Value.andExist_eq]
    · simp only [Diagram.eval_andExist, Call.Holds, listedBy, hvars, h.mem_highVars hvars hs,
        holdsAt_iff hx, holdsAt_iff hy]

theorem step (h : Kept m calls ds) {w : Workspace} (hw : w.incidentsOf m = []) {c : Call}
    {rest : List Call} (hc : c.Scoped m calls.length)
    (hsets : QuantifiesLists (calls ++ c :: rest)) :
    ∃ d, (Session.step m (ds.map m.value) c).run.run w = (.ok ((ds ++ [d]).map m.value), w) ∧
      Kept m (calls ++ [c]) (ds ++ [d]) := by
  have hlisted : ∀ s ∈ c.sets, ∃ vars, calls[s]? = some (.varSet vars) := by
    intro s hs
    have hlt : s < calls.length := hc.1 s (c.sets_subset_operands s hs)
    obtain ⟨vars, hvars⟩ := hsets c (by simp) s hs
    rw [List.getElem?_append_left hlt] at hvars
    exact ⟨vars, hvars⟩
  obtain ⟨d, hperform, hd⟩ := h.perform hw hc hlisted
  refine ⟨d, ?_, h.push hc hd⟩
  rw [Session.step, Attempt.run_bind_ok hperform, List.map_append]
  rfl

theorem run (h : Kept m calls ds) {w w' : Workspace} (hw : w.incidentsOf m = [])
    {rest : List Call} (hsets : QuantifiesLists (calls ++ rest)) {values : List Value}
    (hrun : (rest.foldlM (Session.step m) (ds.map m.value)).run.run w = (.ok values, w')) :
    ∃ ds', values = ds'.map m.value ∧ Kept m (calls ++ rest) ds' := by
  induction rest generalizing calls ds with
  | nil =>
    cases hrun
    rw [List.append_nil]
    exact ⟨ds, rfl, h⟩
  | cons c rest ih =>
    rw [List.foldlM_cons] at hrun
    have hc : c.Scoped m calls.length := by
      obtain ⟨_, w₁, hstep, -⟩ := Attempt.run_bind_eq_ok hrun
      obtain ⟨v, w₂, hperform, -⟩ := Attempt.run_bind_eq_ok hstep
      have hscoped := Call.scoped_of_perform hperform
      rwa [List.length_map, h.length_eq] at hscoped
    obtain ⟨d, hstep, hkept⟩ := h.step hw hc hsets
    rw [Attempt.run_bind_ok hstep] at hrun
    rw [List.append_cons] at hsets ⊢
    exact ih hkept hsets hrun

theorem exists_run (h : Kept m calls ds) {w : Workspace} (hw : w.incidentsOf m = [])
    {rest : List Call} (hsets : QuantifiesLists (calls ++ rest))
    (hscoped : ∀ (k : Nat) (c : Call), (calls ++ rest)[k]? = some c → c.Scoped m k) :
    ∃ values w', (rest.foldlM (Session.step m) (ds.map m.value)).run.run w = (.ok values, w') := by
  induction rest generalizing calls ds with
  | nil => exact ⟨_, _, rfl⟩
  | cons c rest ih =>
    have hc : c.Scoped m calls.length := hscoped calls.length c (by simp)
    obtain ⟨d, hstep, hkept⟩ := h.step hw hc hsets
    rw [List.append_cons] at hsets hscoped
    rw [List.foldlM_cons, Attempt.run_bind_ok hstep]
    exact ih hkept hsets hscoped

end Kept

theorem incidentsOf_create {w w' : Workspace} {varnum : Int}
    (h : w.create varnum = .ok (m, w')) : w'.incidentsOf m = [] := by
  obtain ⟨n, hn, h⟩ := Attempt.bind_eq_ok.mp h
  cases h
  simp [Workspace.incidentsOf]

/-- The functions of diagrams are told apart as the diagrams are. -/
theorem canonical (m : Manager) (x y : Diagram m.varnum) :
    (∀ b, x.isConst b = true ↔ ∀ ρ, x.eval ρ = b) ∧
    (∃ e, (m.value x).equal (m.value y) = .ok e ∧ (e = true ↔ ∀ ρ, x.eval ρ = y.eval ρ)) ∧
    ∃ e, (m.value x).implies (m.value y) = .ok e ∧
      (e = true ↔ ∀ ρ, x.eval ρ = true → y.eval ρ = true) := by
  have hext : ∀ z : Diagram m.varnum, x = z ↔ ∀ ρ, x.eval ρ = z.eval ρ := by
    intro z
    constructor
    · rintro rfl ρ
      rfl
    · exact Diagram.ext
  refine ⟨fun b => ?_, ⟨_, Value.equal_eq m x y, ?_⟩, _, Value.implies_eq m x y, ?_⟩
  · rw [Diagram.isConst_iff, hext]
    simp only [Diagram.eval_const]
  · rw [decide_eq_true_iff, hext]
  · exact Diagram.implies_iff x y

/-- Calls on a new manager are all performed exactly when they have their operands and variables.
Then each gives the function that it names, and results are told apart as their functions are. -/
theorem performAll_exact {w₀ w : Workspace} {varnum : Int} {calls : List Call}
    (hcreate : w₀.create varnum = .ok (m, w)) (hsets : QuantifiesLists calls) :
    ((∃ values w', (performAll m calls).run.run w = (.ok values, w')) ↔
      ∀ (k : Nat) (c : Call), calls[k]? = some c → c.Scoped m k) ∧
    ∀ values w', (performAll m calls).run.run w = (.ok values, w') →
      (values.length = calls.length ∧ ∀ (k : Nat) (c : Call) (v : Value), calls[k]? = some c →
        values[k]? = some v → v.owner = m ∧ ∀ ρ, v.diagram.eval ρ = true ↔
          c.Holds (listedBy calls) (HoldsAt values) ρ) ∧
      ∀ a ∈ values, ∀ b ∈ values, (∀ e, a.diagram.isConst e = true ↔ ∀ ρ, a.diagram.eval ρ = e) ∧
        (∃ e, a.equal b = .ok e ∧ (e = true ↔ ∀ ρ, a.diagram.eval ρ = b.diagram.eval ρ)) ∧
        ∃ e, a.implies b = .ok e ∧
          (e = true ↔ ∀ ρ, a.diagram.eval ρ = true → b.diagram.eval ρ = true) := by
  have hw := incidentsOf_create hcreate
  constructor
  · constructor
    · rintro ⟨values, w', hrun⟩
      obtain ⟨ds, -, hkept⟩ := Kept.nil.run hw hsets hrun
      exact hkept.inScope
    · intro hscoped
      exact Kept.nil.exists_run hw hsets hscoped
  · intro values w' hrun
    obtain ⟨ds, rfl, hkept⟩ := Kept.nil.run hw hsets hrun
    constructor
    · constructor
      · rw [List.length_map, hkept.length_eq]
        rfl
      · intro k c v hc hv
        obtain ⟨d, hd, rfl⟩ := Option.map_eq_some_iff.mp (List.getElem?_map ▸ hv)
        exact ⟨rfl, hkept.meaning k c d hc hd⟩
    · intro a ha b hb
      obtain ⟨x, -, rfl⟩ := List.mem_map.mp ha
      obtain ⟨y, -, rfl⟩ := List.mem_map.mp hb
      exact canonical m x y

/-- Quantifies one of two variables in the statement that they differ. -/
def parityCalls : List Call :=
  [.literal 0 true, .literal 2 true, .binary .xor 0 1, .varSet [2, 2], .exist 2 3, .andExist 3 0 2]

theorem quantifiesLists_parityCalls : QuantifiesLists parityCalls := by
  intro c hc s hs
  simp only [parityCalls, List.mem_cons, List.not_mem_nil, or_false] at hc
  rcases hc with rfl | rfl | rfl | rfl | rfl | rfl <;>
    simp_all [Call.sets, parityCalls]

/-- A set may list a variable twice. -/
theorem performAll_parityCalls :
    ∃ values, (performAll ⟨0, 3⟩ parityCalls).run.run ⟨#[[]]⟩ = (.ok values, ⟨#[[]]⟩) ∧
      (∃ v, values[4]? = some v ∧ ∀ ρ, v.diagram.eval ρ = true ↔
        ∃ σ, (∀ i : Nat, (i : Int) ∉ [2, 2] → σ i = ρ i) ∧ HoldsAt values 2 σ) ∧
      ∃ a b, values[0]? = some a ∧ values[5]? = some b ∧ a.equal b = .ok true := by
  have hrun : (performAll ⟨0, 3⟩ parityCalls).run.run ⟨#[[]]⟩ =
      (.ok [⟨⟨0, 3⟩, .var 0⟩, ⟨⟨0, 3⟩, .var 2⟩, ⟨⟨0, 3⟩, .xor (.var 0) (.var 2)⟩,
        ⟨⟨0, 3⟩, .var 2⟩, ⟨⟨0, 3⟩, .const true⟩, ⟨⟨0, 3⟩, .var 0⟩], ⟨#[[]]⟩) := rfl
  have hcreate : Workspace.empty.create 3 = .ok (⟨0, 3⟩, ⟨#[[]]⟩) := rfl
  obtain ⟨-, hexact⟩ := performAll_exact hcreate quantifiesLists_parityCalls
  obtain ⟨⟨-, hmeaning⟩, hcanonical⟩ := hexact _ _ hrun
  refine ⟨_, hrun, ⟨_, rfl, (hmeaning 4 (.exist 2 3) _ rfl rfl).2⟩, _, _, rfl, rfl, ?_⟩
  obtain ⟨-, ⟨e, hequal, he⟩, -⟩ := hcanonical ⟨⟨0, 3⟩, .var 0⟩ (by simp) ⟨⟨0, 3⟩, .var 0⟩ (by simp)
  rw [hequal, he.mpr fun ρ => rfl]

end SymbolicLtl.Session
