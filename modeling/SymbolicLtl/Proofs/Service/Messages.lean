import Mathlib.Algebra.Order.Group.Multiset
import Mathlib.Tactic.Abel
import SymbolicLtl.Proofs.Emptiness.Verdict
import SymbolicLtl.Proofs.Json.Records
import SymbolicLtl.Proofs.Model.Meaning
import SymbolicLtl.Service.Message

/-!
Messages read back. A request that was written is read as the same model with the same options, in
whatever order its members come and whether empty lists and tables are null or not. What a client
reads from an answer is the answer.
-/
namespace SymbolicLtl

open JsonValue

namespace Model

/-- The tables of a model have one entry for each name. -/
structure Tabular (m : Model) : Prop where
  next : (m.next.map Prod.fst).Nodup
  defines : (m.defines.map Prod.fst).Nodup

theorem tabular_of_ofValue {m : Model} {v : JsonValue} (h : ofValue v = .ok m) :
    m.Tabular ∧ m.validate = .ok () := by
  obtain ⟨d, hd, h⟩ := Attempt.bind_eq_ok.mp h
  obtain ⟨⟨⟩, hvalid, h⟩ := Attempt.bind_eq_ok.mp h
  cases h
  have hread : readRecord fields {} v = .ok d := (Attempt.mapError_eq_ok_iff _).mp hd
  refine ⟨?_, hvalid⟩
  have hempty : (Draft.toModel {}).Tabular := ⟨List.nodup_nil, List.nodup_nil⟩
  refine readRecord_keeps (I := fun d => d.toModel.Tabular) ?_ hempty hread
  simp only [fields, List.forall_mem_cons, List.not_mem_nil, false_implies, implies_true, and_true]
  refine ⟨keeps_put ?_, keeps_put ?_, keeps_put ?_, keeps_put ?_, keeps_put ?_, keeps_put ?_,
    keeps_put ?_⟩
  · exact fun _ _ _ hd _ => ⟨hd.next, hd.defines⟩
  · exact fun _ _ _ hd _ => ⟨hd.next, hd.defines⟩
  · exact fun _ _ _ hd hx => ⟨nodup_readTable hd.next hx, hd.defines⟩
  · exact fun _ _ _ hd _ => ⟨hd.next, hd.defines⟩
  · exact fun _ _ _ hd hx => ⟨hd.next, nodup_readTable hd.defines hx⟩
  · exact fun _ _ _ hd _ => ⟨hd.next, hd.defines⟩
  · exact fun _ _ _ hd _ => ⟨hd.next, hd.defines⟩

inductive Writes (m : Model) : JsonValue → Prop
  | object {vars next trans defines fairness : JsonValue} {members : List (String × JsonValue)}
    (hvars : WritesList .string m.vars vars) (hnext : WritesTable m.next next)
    (htrans : WritesList .string m.trans trans) (hdefines : WritesTable m.defines defines)
    (hfairness : WritesList .string m.fairness fairness)
    (hmembers : members.Perm [("vars", vars), ("init", .string m.init), ("next", next),
      ("trans", trans), ("defines", defines), ("fairness", fairness),
      ("ltlspec", .string m.ltlspec)]) : Writes m (.object members)

theorem writes_toValue (m : Model) : m.Writes m.toValue :=
  .object (.array _) (.object _) (.array _) (.object _) (.array _) (.refl _)

/-- Members in the order of their names fill the fields one after the other. -/
theorem Writes.readRecord_eq {m : Model} {v : JsonValue} (hv : m.Writes v) (htables : m.Tabular) :
    readRecord fields {} v.sortMembers = .ok ⟨.ofList m.vars, m.init, m.next, .ofList m.trans,
      m.defines, .ofList m.fairness, m.ltlspec⟩ := by
  obtain @⟨vars, next, trans, defines, fairness, members, hvars, hnext, htrans, hdefines, hfairness,
    hmembers⟩ := hv
  have hperm : members.Perm [("defines", defines), ("fairness", fairness),
      ("init", .string m.init), ("ltlspec", .string m.ltlspec), ("next", next), ("trans", trans),
      ("vars", vars)] := by
    refine hmembers.trans (Multiset.coe_eq_coe.mp ?_)
    simp only [← Multiset.cons_coe, ← Multiset.singleton_add, Multiset.coe_nil, add_zero]
    abel
  have hnames : ["defines", "fairness", "init", "ltlspec", "next", "trans", "vars"].Pairwise
      (· < ·) := by
    decide
  rw [sortMembers_object hperm (List.pairwise_map.mp hnames)]
  have hfairness := hfairness.readList_eq (readString_string m.fairness) ""
  have htrans := htrans.readList_eq (readString_string m.trans) ""
  have hvars := hvars.readList_eq (readString_string m.vars) ""
  change readMembers fields {} _ = _
  refine Eq.trans (readMembers_cons rfl (by exact hdefines.readTable_eq htables.defines) _) ?_
  refine Eq.trans (readMembers_cons rfl (by exact hfairness) _) ?_
  refine Eq.trans (readMembers_cons (x := some m.init) rfl rfl _) ?_
  refine Eq.trans (readMembers_cons (x := some m.ltlspec) rfl rfl _) ?_
  refine Eq.trans (readMembers_cons rfl (by exact hnext.readTable_eq htables.next) _) ?_
  refine Eq.trans (readMembers_cons rfl (by exact htrans) _) ?_
  refine Eq.trans (readMembers_cons rfl (by exact hvars) _) ?_
  rfl

theorem Writes.ofValue_eq {m : Model} {v : JsonValue} (hv : m.Writes v) (htables : m.Tabular)
    (hvalid : m.validate = .ok ()) : ofValue v.sortMembers = .ok m := by
  have hmodel : Draft.toModel ⟨.ofList m.vars, m.init, m.next, .ofList m.trans, m.defines,
      .ofList m.fairness, m.ltlspec⟩ = m := by
    simp only [Draft.toModel, Slots.toList_ofList]
  unfold ofValue
  rw [hv.readRecord_eq htables]
  simp only [Except.mapError, Attempt.ok_bind, hmodel, hvalid]
  rfl

end Model

namespace RequestOptions

/-- The numbers in options have at most 53 bits. -/
structure Bounded (o : RequestOptions) : Prop where
  forward : ∀ i ∈ o.forwardSlices, i.natAbs ≤ 9007199254740992
  backward : ∀ i ∈ o.backwardSlices, i.natAbs ≤ 9007199254740992
  executors : o.executors.natAbs ≤ 9007199254740992
  extendTrans : ∀ i ∈ o.extendTrans, i.natAbs ≤ 9007199254740992

inductive Writes (o : RequestOptions) : JsonValue → Prop
  | object {members members' : List (String × JsonValue)} (h : o.toValue = .object members')
    (hmembers : members.Perm members') : Writes o (.object members)

theorem writes_toValue (o : RequestOptions) : o.Writes o.toValue := .object rfl (.refl _)

def blocks (o : RequestOptions) : List (List (String × JsonValue)) := [
  if o.backwardSlices = [] then [] else [("backward_slices", .array (o.backwardSlices.map .ofInt))],
  if o.extendTrans = [] then [] else [("extend_trans", .array (o.extendTrans.map .ofInt))],
  if o.forwardSlices = [] then [] else [("forward_slices", .array (o.forwardSlices.map .ofInt))],
  if o.executors = 0 then [] else [("num_executors", .ofInt o.executors)],
  if o.parallel = false then [] else [("parallel", .bool true)],
  if o.safety = false then [] else [("safety", .bool true)],
  if o.strategy = "" then [] else [("strategy", .string o.strategy)],
  if o.method = "" then [] else [("trans_method", .string o.method)]]

theorem readRecord_blocks {o : RequestOptions} (h : o.Bounded) :
    readRecord fields {} (.object o.blocks.flatten) = .ok ⟨o.parallel, o.strategy,
      .ofList o.forwardSlices, .ofList o.backwardSlices, o.executors, o.method, o.safety,
      .ofList o.extendTrans⟩ := by
  have hints : ∀ {xs : List Int}, (∀ i ∈ xs, i.natAbs ≤ 9007199254740992) →
      readList readInt 0 .empty (.array (xs.map .ofInt)) = .ok (.ofList xs) :=
    fun hxs => (WritesList.array _).readList_eq (fun i hi => readInt_ofInt (hxs i hi)) 0
  change readMembers fields {} _ = _
  simp only [blocks, List.flatten_cons, List.flatten_nil]
  -- A member that is left out leaves the field as it was, and that is what the options say.
  refine Eq.trans (readMembers_unless rfl rfl (congrArg Slots.ofList)
    (fun _ => by exact hints h.backward) _) ?_
  refine Eq.trans (readMembers_unless rfl rfl (congrArg Slots.ofList)
    (fun _ => by exact hints h.extendTrans) _) ?_
  refine Eq.trans (readMembers_unless rfl rfl (congrArg Slots.ofList)
    (fun _ => by exact hints h.forward) _) ?_
  refine Eq.trans (readMembers_unless rfl rfl (congrArg some)
    (fun _ => by exact readInt_ofInt h.executors) _) ?_
  refine Eq.trans (readMembers_unless rfl rfl (congrArg some) (by exact readBool_true) _) ?_
  refine Eq.trans (readMembers_unless rfl rfl (congrArg some) (by exact readBool_true) _) ?_
  refine Eq.trans (readMembers_unless rfl rfl (congrArg some) (fun _ => rfl) _) ?_
  refine Eq.trans (readMembers_unless rfl rfl (congrArg some) (fun _ => rfl) _) ?_
  rfl

theorem isBlock_blocks (o : RequestOptions) : List.Forall₂ IsBlock ["backward_slices",
    "extend_trans", "forward_slices", "num_executors", "parallel", "safety", "strategy",
    "trans_method"] o.blocks := by
  have hblock : ∀ {c : Prop} [Decidable c] {name : String} {v : JsonValue},
      IsBlock name (if c then [] else [(name, v)]) := by
    intro c _ name v
    by_cases hc : c
    · exact .inl (if_pos hc)
    · exact .inr ⟨v, if_neg hc⟩
  simp only [blocks, List.forall₂_cons, List.Forall₂.nil, hblock, and_self]

theorem Writes.sortMembers_eq {o : RequestOptions} {v : JsonValue} (hv : o.Writes v) :
    v.sortMembers = .object o.blocks.flatten := by
  obtain @⟨members, members', htoValue, hmembers⟩ := hv
  have hperm : members'.Perm o.blocks.flatten := by
    cases htoValue
    refine Multiset.coe_eq_coe.mp ?_
    simp only [blocks, List.flatten_cons, List.flatten_nil, List.append_nil, ← Multiset.coe_add,
      List.isEmpty_iff, ← Bool.not_eq_true, ite_not]
    abel
  exact sortMembers_object (hmembers.trans hperm) (pairwise_flatten o.isBlock_blocks (by decide))

theorem Writes.ofValue_eq {o : RequestOptions} {v : JsonValue} (hv : o.Writes v) (h : o.Bounded) :
    ofValue v.sortMembers = .ok o := by
  rw [hv.sortMembers_eq]
  unfold ofValue
  rw [readRecord_blocks h, Attempt.ok_bind]
  simp only [Draft.toOptions, Slots.toList_ofList]
  rfl

end RequestOptions

namespace Request

inductive Writes (r : Request) : JsonValue → Prop
  | object {m o : JsonValue} (hm : r.model.Writes m) (ho : r.options.Writes o) :
    Writes r (.object [("model", m), ("options", o)])

theorem writes_toValue (r : Request) : r.Writes r.toValue :=
  .object r.model.writes_toValue r.options.writes_toValue

theorem Writes.ofValue_eq {r : Request} {v : JsonValue} (hv : r.Writes v) (htables : r.model.Tabular)
    (hvalid : r.model.validate = .ok ()) (hbounded : r.options.Bounded) : ofValue v = .ok r := by
  obtain @⟨m, o, hm, ho⟩ := hv
  have hmodel : objectMember? (.object [("model", m), ("options", o)]) "model" =
      some m.sortMembers := by
    cases hm
    rfl
  have hoptions : objectMember? (.object [("model", m), ("options", o)]) "options" =
      some o.sortMembers := by
    cases ho
    rfl
  unfold ofValue
  simp only [hmodel, hoptions, hm.ofValue_eq htables hvalid, ho.ofValue_eq hbounded, Except.mapError,
    Attempt.ok_bind]
  rfl

theorem tabular_of_ofValue {r : Request} {v : JsonValue} (h : ofValue v = .ok r) :
    r.model.Tabular ∧ r.model.validate = .ok () := by
  unfold ofValue at h
  cases hmodel : objectMember? v "model" with
  | none =>
    rw [hmodel] at h
    cases h
  | some m =>
    rw [hmodel] at h
    obtain ⟨model, hm, h⟩ := Attempt.bind_eq_ok.mp h
    have hsame : r.model = model := by
      cases hoptions : objectMember? v "options" with
      | none =>
        rw [hoptions] at h
        cases h
        rfl
      | some o =>
        rw [hoptions] at h
        obtain ⟨options, -, h⟩ := Attempt.bind_eq_ok.mp h
        cases h
        rfl
    rw [hsame]
    exact Model.tabular_of_ofValue ((Attempt.mapError_eq_ok_iff _).mp hm)

end Request

namespace CheckResult

/-- A client reads the result that was sent. -/
theorem ofValue_toValue {c : CheckResult} (h : ∀ q ∈ c.violating, q.natAbs ≤ 9007199254740992) :
    ofValue c.toValue = c := by
  have hviolating : (ofValue c.toValue).violating = c.violating := by
    change (c.violating.map JsonValue.ofInt).map _ = c.violating
    rw [List.map_map]
    refine (List.map_congr_left fun q hq => ?_).trans (List.map_id _)
    exact (Double.isInt_ofDecimal (h q hq)).truncate_eq
  have hrest : ofValue c.toValue = { c with violating := (ofValue c.toValue).violating } := rfl
  rw [hrest, hviolating]

end CheckResult

theorem Response.exists_witnessLines (qs : List Int) {ws : List String} (h : qs.length ≤ ws.length) :
    ∃ lines, witnessLines qs ws = .ok lines := by
  induction qs generalizing ws with
  | nil => exact ⟨"", rfl⟩
  | cons q qs ih =>
    cases ws with
    | nil => simp at h
    | cons w ws =>
      obtain ⟨lines, hlines⟩ := @ih ws (by simpa using h)
      exact ⟨_, Attempt.bind_eq_ok.mpr ⟨lines, hlines, rfl⟩⟩

namespace Product

variable {n : Nat} {p : Product n}

inductive Answers (p : Product n) : Response → Prop
  | safety : Answers p p.checkSafety
  | check {s : Strategy p} {verbose : Bool} {r : Response} (h : (s.check verbose).result = .ok r) :
    Answers p r

theorem Answers.exists_found {r : Response} (h : p.Answers r) :
    ∃ safety statistic, ∃ found : List (Fin p.size × Nat), r = respond safety found statistic := by
  cases h with
  | safety => exact ⟨_, _, _, rfl⟩
  | @check s verbose _ h =>
    unfold Strategy.check at h
    dsimp only at h
    split at h
    · cases h
    · split at h
      · cases h
      · cases h
        exact ⟨_, _, _, rfl⟩

/-- An answer can be described, and names automaton states if the property does not hold. -/
theorem Answers.exists_describe {r : Response} (h : p.Answers r) (text : String) :
    ∃ message, r.describe text = .ok message := by
  obtain ⟨safety, statistic, found, rfl⟩ := h.exists_found
  unfold Response.describe
  by_cases hfound : (respond safety found statistic).holds = true
  · exact ⟨_, if_pos hfound⟩
  · have hlength : (respond safety found statistic).violating.length ≤
        (respond safety found statistic).witnesses.length := by
      simp [respond]
    obtain ⟨lines, hlines⟩ := Response.exists_witnessLines _ hlength
    rw [if_neg hfound, hlines]
    exact ⟨_, rfl⟩

theorem Answers.lt_size {r : Response} (h : p.Answers r) {q : Int} (hq : q ∈ r.violating) :
    q.natAbs < p.size := by
  obtain ⟨safety, statistic, found, rfl⟩ := h.exists_found
  obtain ⟨e, -, rfl⟩ := List.mem_map.mp hq
  exact e.1.isLt

theorem Answers.violating_eq_nil {r : Response} (h : p.Answers r) (hr : r.holds = true) :
    r.violating = [] := by
  obtain ⟨safety, statistic, found, rfl⟩ := h.exists_found
  obtain rfl : found = [] := List.isEmpty_iff.mp hr
  rfl

end Product

/-- A valid model and options whose numbers have at most 53 bits are read from any object that
describes them, such as the one that is sent. What a client reads from the answer of a check is
whether the property holds, the description of the answer, and the violating automaton states, of
which there are none if it holds. -/
theorem messages_read_back :
    (∀ (r : Request) (v : JsonValue), r.Writes v → r.model.validate = .ok () → r.model.Tabular →
      r.options.Bounded → Request.ofValue v = .ok r) ∧
    (∀ r : Request, r.Writes r.toValue) ∧
    ∀ (n : Nat) (p : Product n), p.size ≤ memoryLimit → ∀ response, p.Answers response →
      ∀ (elapsed : Decimal) (text : String), ∃ message sent, response.describe text = .ok message ∧
        CheckResult.ofResponse response elapsed text = .ok sent ∧
        CheckResult.ofValue sent.toValue =
          ⟨response.holds, elapsed, message, response.violating⟩ ∧
        (response.holds = true → response.violating = []) := by
  refine ⟨fun r v hv hvalid htables hbounded => hv.ofValue_eq htables hvalid hbounded,
    Request.writes_toValue, fun n p hsize response h elapsed text => ?_⟩
  obtain ⟨message, hmessage⟩ := h.exists_describe text
  have hsent : CheckResult.ofResponse response elapsed text =
      .ok ⟨response.holds, elapsed, message, response.violating⟩ := by
    unfold CheckResult.ofResponse
    rw [hmessage]
    rfl
  have hread := @CheckResult.ofValue_toValue ⟨response.holds, elapsed, message, response.violating⟩
    fun q hq => by
      have := h.lt_size hq
      unfold memoryLimit at hsize
      omega
  exact ⟨message, _, hmessage, hsent, hread, h.violating_eq_nil⟩

/-- A request with some options of its own, and the answer to a safety check. -/
theorem messages_read_back_blinker :
    (Request.ofValue (Request.toValue ⟨.blinker, { parallel := true, backwardSlices := [1, -7] }⟩) =
      .ok ⟨.blinker, { parallel := true, backwardSlices := [1, -7] }⟩) ∧
    ∃ message sent, Strategy.toggle.checkSafety.describe "1ms" = .ok message ∧
      CheckResult.ofResponse Strategy.toggle.checkSafety ⟨1, 0⟩ "1ms" = .ok sent ∧
      (CheckResult.ofValue sent.toValue).violating = Strategy.toggle.checkSafety.violating := by
  obtain ⟨hrequest, hwrites, hanswer⟩ := messages_read_back
  constructor
  · have hnames : Model.blinker.Tabular := ⟨by decide, by decide⟩
    exact hrequest _ _ (hwrites _) rfl hnames ⟨by decide, by decide, by decide, by decide⟩
  · obtain ⟨message, sent, hmessage, hsent, hread, -⟩ :=
      hanswer 2 Strategy.toggle (by decide) _ .safety ⟨1, 0⟩ "1ms"
    exact ⟨message, sent, hmessage, hsent, by rw [hread]⟩

end SymbolicLtl
