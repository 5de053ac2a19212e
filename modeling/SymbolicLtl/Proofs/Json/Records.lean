import Mathlib.Data.List.Nodup
import SymbolicLtl.Proofs.Attempt
import SymbolicLtl.Proofs.Json.Whole

/-!
Records read back from objects. Members may come in any order; lists and tables that are empty may
be written as null or left out.
-/
namespace SymbolicLtl.JsonValue

variable {α σ : Type}

theorem pairwise_mergeSort_names (members : List (String × JsonValue)) :
    (members.mergeSort fun a b => decide (a.1 ≤ b.1)).Pairwise fun a b => a.1 ≤ b.1 := by
  have htrans : ∀ a b c : String × JsonValue, decide (a.1 ≤ b.1) = true →
      decide (b.1 ≤ c.1) = true → decide (a.1 ≤ c.1) = true := by
    intro a b c hab hbc
    simp only [decide_eq_true_eq] at hab hbc ⊢
    exact String.le_trans hab hbc
  have htotal : ∀ a b : String × JsonValue, (decide (a.1 ≤ b.1) || decide (b.1 ≤ a.1)) = true := by
    intro a b
    simpa using String.le_total a.1 b.1
  simpa only [decide_eq_true_eq] using List.pairwise_mergeSort htrans htotal members

/-- Members with different names have one order. -/
theorem sortMembers_object {members sorted : List (String × JsonValue)}
    (hperm : members.Perm sorted) (hsorted : sorted.Pairwise fun a b => a.1 < b.1) :
    (object members).sortMembers = object sorted := by
  have hperm' := (List.mergeSort_perm members fun a b => decide (a.1 ≤ b.1)).trans hperm
  have hnames : (sorted.map Prod.fst).Nodup := List.pairwise_map.mpr (hsorted.imp String.ne_of_lt)
  have hsorted' : sorted.Pairwise fun a b => a.1 ≤ b.1 :=
    hsorted.imp fun h => String.not_lt.mp (String.lt_asymm h)
  refine congrArg object (hperm'.eq_of_pairwise ?_ (pairwise_mergeSort_names members) hsorted')
  intro a b ha hb hab hba
  exact List.inj_on_of_nodup_map hnames (hperm'.mem_iff.mp ha) hb (String.le_antisymm hab hba)

/-- A block that holds nothing but the member of a name. -/
def IsBlock (name : String) (block : List (String × JsonValue)) : Prop :=
  block = [] ∨ ∃ v, block = [(name, v)]

theorem IsBlock.name_eq {name : String} {block : List (String × JsonValue)} (h : IsBlock name block)
    {e : String × JsonValue} (he : e ∈ block) : e.1 = name := by
  rcases h with rfl | ⟨v, rfl⟩
  · cases he
  · rw [List.mem_singleton.mp he]

theorem mem_names {names : List String} {blocks : List (List (String × JsonValue))}
    (h : List.Forall₂ IsBlock names blocks) {e : String × JsonValue} (he : e ∈ blocks.flatten) :
    e.1 ∈ names := by
  induction h with
  | nil => cases he
  | cons hblock _ ih =>
    rcases List.mem_append.mp he with he | he
    · rw [hblock.name_eq he]
      exact List.mem_cons_self
    · exact List.mem_cons_of_mem _ (ih he)

theorem pairwise_flatten {names : List String} {blocks : List (List (String × JsonValue))}
    (h : List.Forall₂ IsBlock names blocks) (hnames : names.Pairwise (· < ·)) :
    blocks.flatten.Pairwise fun a b => a.1 < b.1 := by
  induction h with
  | nil => exact .nil
  | @cons name block names blocks hblock hrest ih =>
    rw [List.pairwise_cons] at hnames
    rw [List.flatten_cons, List.pairwise_append]
    refine ⟨?_, ih hnames.2, fun a ha b hb => ?_⟩
    · rcases hblock with rfl | ⟨v, rfl⟩
      · exact .nil
      · exact List.pairwise_singleton _ _
    · rw [hblock.name_eq ha]
      exact hnames.1 _ (mem_names hrest hb)

def Slots.ofList (xs : List α) : Slots α := ⟨xs, xs.length⟩

@[simp] theorem Slots.toList_ofList (xs : List α) : (ofList xs).toList = xs := List.take_length

theorem Slots.overlay_map_some (zero : α) (xs : List α) : overlay zero (xs.map some) [] = xs := by
  induction xs with
  | nil => rfl
  | cons x xs ih => exact congrArg (x :: ·) ih

/-- A list is written as an array; one that was never made is null. -/
inductive WritesList (write : α → JsonValue) : List α → JsonValue → Prop
  | array (xs : List α) : WritesList write xs (.array (xs.map write))
  | null : WritesList write [] .null

inductive WritesTable : List (String × String) → JsonValue → Prop
  | object (xs : List (String × String)) :
    WritesTable xs (.object (xs.map fun x => (x.1, .string x.2)))
  | null : WritesTable [] .null

theorem WritesList.readList_eq {write : α → JsonValue} {xs : List α} {v : JsonValue}
    (hv : WritesList write xs v) {item : JsonValue → Except DecodeError (Option α)}
    (hitem : ∀ x ∈ xs, item (write x) = .ok (some x)) (zero : α) :
    readList item zero .empty v = .ok (.ofList xs) := by
  cases hv with
  | null => rfl
  | array =>
    have hitems : (xs.map write).mapM item = .ok (xs.map some) := by
      rw [Attempt.mapM_eq_ok, List.forall₂_map_left_iff, List.forall₂_map_right_iff,
        List.forall₂_same]
      exact hitem
    cases xs with
    | nil => rfl
    | cons x xs =>
      have hlist : readList item zero .empty (.array ((x :: xs).map write)) =
          (((x :: xs).map write).mapM item >>= fun items =>
            .ok ⟨Slots.overlay zero items [], ((x :: xs).map write).length⟩) := rfl
      rw [hlist, hitems, Attempt.ok_bind, Slots.overlay_map_some, List.length_map]
      rfl

theorem readString_string (xs : List String) :
    ∀ x ∈ xs, readString (.string x) = .ok (some x) := fun _ _ => rfl

theorem readBool_true {b : Bool} (h : ¬ b = false) : readBool (.bool true) = .ok (some b) := by
  rw [Bool.not_eq_false] at h
  rw [h]
  rfl

theorem setEntry_of_notMem {entries : List (String × String)} {key : String}
    (h : key ∉ entries.map Prod.fst) (value : String) :
    setEntry entries key value = entries ++ [(key, value)] := by
  have hlookup : entries.lookup key = none := by
    rw [List.lookup_eq_none_iff]
    intro e he
    have hne : key ≠ e.1 := fun heq => h (heq ▸ List.mem_map_of_mem he)
    simpa using hne
  rw [setEntry, hlookup]
  rfl

theorem readTable_cons (old : List (String × String)) (e : String × JsonValue)
    (members : List (String × JsonValue)) : readTable old (.object (e :: members)) =
      (readString e.2 >>= fun text =>
        readTable (setEntry old e.1 (text.getD "")) (.object members)) := by
  simp only [readTable, List.foldlM_cons]
  cases readString e.2 with
  | error err => rfl
  | ok text => rfl

theorem WritesTable.readTable_eq {xs : List (String × String)} {v : JsonValue}
    (hv : WritesTable xs v) (hkeys : (xs.map Prod.fst).Nodup) : readTable [] v = .ok xs := by
  cases hv with
  | null => rfl
  | object =>
    -- The entries that were read so far stand in front of the others.
    have hread : ∀ (old xs : List (String × String)), ((old ++ xs).map Prod.fst).Nodup →
        readTable old (.object (xs.map fun x => (x.1, .string x.2))) = .ok (old ++ xs) := by
      intro old xs
      induction xs generalizing old with
      | nil =>
        intro _
        rw [List.append_nil]
        rfl
      | cons x xs ih =>
        intro hkeys
        have hnew : x.1 ∉ old.map Prod.fst := by
          rw [List.map_append, List.nodup_append] at hkeys
          exact fun hmem => hkeys.2.2 _ hmem _ (by simp) rfl
        rw [List.map_cons, readTable_cons, readString, Attempt.ok_bind, Option.getD_some,
          setEntry_of_notMem hnew, ih, List.append_assoc, List.singleton_append]
        simpa using hkeys
    exact hread [] xs hkeys

theorem nodup_setEntry {entries : List (String × String)} (h : (entries.map Prod.fst).Nodup)
    (key value : String) : ((setEntry entries key value).map Prod.fst).Nodup := by
  by_cases hkey : key ∈ entries.map Prod.fst
  · have hsome : (entries.lookup key).isSome = true := by
      obtain ⟨e, he, rfl⟩ := List.mem_map.mp hkey
      by_contra hnone
      have hne := List.lookup_eq_none_iff.mp (Option.not_isSome_iff_eq_none.mp hnone) e he
      simp at hne
    have hsame : (setEntry entries key value).map Prod.fst = entries.map Prod.fst := by
      rw [setEntry, if_pos hsome, List.map_map]
      refine List.map_congr_left fun e _ => ?_
      by_cases he : e.1 = key
      · simp [he]
      · simp [he]
    rwa [hsame]
  · rw [setEntry_of_notMem hkey, List.map_append, List.nodup_append]
    refine ⟨h, List.nodup_singleton key, fun a ha b hb => ?_⟩
    obtain rfl := List.mem_singleton.mp hb
    exact fun heq => hkey (heq ▸ ha)

/-- The keys of a table that was read are different. -/
theorem nodup_readTable {old table : List (String × String)} (hold : (old.map Prod.fst).Nodup)
    {v : JsonValue} (h : readTable old v = .ok table) : (table.map Prod.fst).Nodup := by
  cases v with
  | null =>
    cases h
    exact List.nodup_nil
  | object members =>
    induction members generalizing old with
    | nil =>
      cases h
      exact hold
    | cons e members ih =>
      rw [readTable_cons] at h
      obtain ⟨text, -, h⟩ := Attempt.bind_eq_ok.mp h
      exact ih (nodup_setEntry hold e.1 _) h
  | bool | number | string | array => cases h

section Members

variable {β : Type} {fields : List (String × FieldReader σ)} {name : String} {v : JsonValue}
  {read : σ → JsonValue → Except DecodeError β} {put : σ → β → σ} {d : σ} {x zero : β}

theorem readMembers_cons
    (hfield : fields.lookup (foldName name) = some fun d v => return put d (← read d v))
    (hx : read d v = .ok x) (rest : List (String × JsonValue)) :
    readMembers fields d ((name, v) :: rest) = readMembers fields (put d x) rest := by
  unfold readMembers
  rw [List.foldlM_cons]
  simp only [hfield, hx]
  rfl

theorem readMembers_unless {c : Prop} [Decidable c]
    (hfield : fields.lookup (foldName name) = some fun d v => return put d (← read d v))
    (hzero : put d zero = d) (habsent : c → x = zero) (hpresent : ¬ c → read d v = .ok x)
    (rest : List (String × JsonValue)) :
    readMembers fields d ((if c then [] else [(name, v)]) ++ rest) =
      readMembers fields (put d x) rest := by
  by_cases hc : c
  · rw [if_pos hc, habsent hc, hzero]
    rfl
  · rw [if_neg hc]
    exact readMembers_cons hfield (hpresent hc) rest

theorem keeps_put {I : σ → Prop} (h : ∀ d v x, I d → read d v = .ok x → I (put d x)) :
    ∀ d v d', I d → (do return put d (← read d v)) = Except.ok d' → I d' := by
  intro d v d' hd hset
  obtain ⟨x, hx, hset⟩ := Attempt.bind_eq_ok.mp hset
  cases hset
  exact h d v x hd hx

/-- What every field keeps is kept when a record is read. -/
theorem readRecord_keeps {I : σ → Prop} {d' : σ}
    (hfields : ∀ f ∈ fields, ∀ d v d', I d → f.2 d v = .ok d' → I d') (hd : I d)
    (h : readRecord fields d v = .ok d') : I d' := by
  cases v with
  | null =>
    cases h
    exact hd
  | object members =>
    change readMembers fields d members = .ok d' at h
    induction members generalizing d with
    | nil =>
      cases h
      exact hd
    | cons e members ih =>
      unfold readMembers at h
      rw [List.foldlM_cons] at h
      obtain ⟨d₁, h₁, hrest⟩ := Attempt.bind_eq_ok.mp h
      cases hset : fields.lookup (foldName e.1) with
      | none =>
        simp only [hset] at h₁
        cases h₁
      | some set =>
        simp only [hset] at h₁
        obtain ⟨l₁, l₂, hl, -⟩ := List.lookup_eq_some_iff.mp hset
        exact ih (hfields (foldName e.1, set) (by simp [hl]) d e.2 d₁ hd h₁) hrest
  | bool | number | string | array => cases h

end Members

end SymbolicLtl.JsonValue
