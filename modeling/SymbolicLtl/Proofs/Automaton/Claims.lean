import Mathlib.Data.Fin.Basic
import SymbolicLtl.Proofs.Automaton.Guards
import SymbolicLtl.Proofs.Automaton.Layout
import SymbolicLtl.Proofs.Automaton.NeverClaim
import SymbolicLtl.Proofs.Formula.Rendering

/-!
Claims as lists of states, and their texts. However a claim is laid out, it is read as the automaton
that has its states in their order, with an edge for each `skip` and for each option.
-/
namespace SymbolicLtl.NeverClaim

variable {n : Nat}

/-- What a state lists: that it may stay, that it is stuck, or that it may jump under a guard. -/
inductive Item where
  | skip
  | stuck
  | option (guard target : String)

structure Block where
  name : String
  items : List Item

namespace Item

def text : Item → String
  | skip => "skip"
  | stuck => "false"
  | option guard target => ":: " ++ guard ++ " -> goto " ++ target

/-- A semicolon may end the line of an item. -/
def Written (i : Item) (line : String) : Prop := line = i.text ∨ line = i.text ++ ";"

/-- A guard is on one line and has a meaning, and the jump behind it leads to a state. -/
def Accepted (n : Nat) (scope : Scope) (names : List String) : Item → Prop
  | skip | stuck => True
  | option guard target =>
    '\n' ∉ guard.toList ∧ (∃ d : Diagram n, scope.compileText guard = .ok d) ∧ target ∈ names

def edges (scope : Scope) (names : List String) (k : Nat) : Item → List (Nat × Diagram n)
  | skip => [(k, .const true)]
  | stuck => []
  | option guard target =>
    match (scope.compileText guard : Attempt FormulaError (Diagram n)) with
    | .ok d => [(names.idxOf target, d)]
    | .error _ => []

end Item

namespace Block

def edges (scope : Scope) (names : List String) (k : Nat) (b : Block) : List (Nat × Diagram n) :=
  b.items.flatMap (Item.edges scope names k)

def brackets : List (String × String) := [("if", "fi"), ("if", "fi;"), ("do", "od"), ("do", "od;")]

/-- The lines of a state: its label, and its items with or without brackets. -/
def Written (b : Block) (lines : List String) : Prop :=
  ∃ body, List.Forall₂ Item.Written b.items body ∧
    (lines = (b.name ++ ":") :: body ∨
      ∃ x ∈ brackets, lines = (b.name ++ ":") :: x.1 :: (body ++ [x.2]))

end Block

/-- The text is a claim with the given states, in some layout. -/
def Written (blocks : List Block) (text : String) : Prop :=
  ∃ lines, List.Forall₂ Block.Written blocks lines ∧
    Layout (["never \x7b".toList] ++ lines.flatten.map String.toList ++ ["\x7d".toList]) text.toList

structure WellFormed (n : Nat) (scope : Scope) (blocks : List Block) : Prop where
  nonempty : blocks ≠ []
  nodup : (blocks.map Block.name).Nodup
  isStateName : ∀ b ∈ blocks, IsStateName b.name
  accepted : ∀ b ∈ blocks, ∀ i ∈ b.items, i.Accepted n scope (blocks.map Block.name)

def Initial (name : String) : Prop := name = "init" ∨ "_init".toList <:+ name.toList

def Accepting (name : String) : Prop := "accept_".toList <+: name.toList

/-- The automaton of a claim. The first state is initial if no name is that of an initial state. -/
structure IsAutomatonOf (scope : Scope) (blocks : List Block) (a : Automaton n) : Prop where
  size : a.size = blocks.length
  outgoing : ∀ k b, blocks[k]? = some b → (a.outgoing k).map (fun e => (e.target.val, e.label)) =
    b.edges scope (blocks.map Block.name) k
  initial : ∀ (q : Fin a.size) (b : Block), blocks[q.val]? = some b →
    (q ∈ a.initial ↔ Initial b.name ∨ q.val = 0 ∧ ∀ c ∈ blocks, ¬ Initial c.name)
  accepting : ∀ (q : Fin a.size) (b : Block), blocks[q.val]? = some b →
    (q ∈ a.accepting ↔ Accepting b.name)

theorem isStateChar_apart {c : Char} (h : isStateChar c = true) :
    Text.isBlank c = false ∧ c ≠ '/' ∧ c ≠ '\n' := by
  have hnat : 48 ≤ c.toNat ∧ c.toNat ≤ 57 ∨ 65 ≤ c.toNat ∧ c.toNat ≤ 90 ∨
      97 ≤ c.toNat ∧ c.toNat ≤ 122 ∨ c.toNat = 95 := by
    change ((decide ('A'.val ≤ c.val ∧ c.val ≤ 'Z'.val) || ('a'.val ≤ c.val && c.val ≤ 'z'.val)) ||
      ('0'.val ≤ c.val && c.val ≤ '9'.val) || c == '_') = true at h
    simp only [Bool.or_eq_true, Bool.and_eq_true, decide_eq_true_eq, beq_iff_eq,
      UInt32.le_iff_toNat_le] at h
    rcases h with ((hupper | hlower) | hdigit) | rfl
    · exact .inr (.inl hupper)
    · exact .inr (.inr (.inl hlower))
    · exact .inl hdigit
    · decide
  refine ⟨?_, ?_, ?_⟩
  · rw [Bool.eq_false_iff]
    intro hblank
    simp only [Text.isBlank, Bool.or_eq_true, Bool.and_eq_true, decide_eq_true_eq,
      beq_iff_eq] at hblank
    omega
  · rintro rfl
    exact absurd hnat (by decide)
  · rintro rfl
    exact absurd hnat (by decide)

theorem isStateChar_of_isStateStart {c : Char} (h : isStateStart c = true) :
    isStateChar c = true := by
  unfold isStateStart at h
  unfold isStateChar Char.isAlphanum
  simp only [Bool.or_eq_true] at h ⊢
  tauto

theorem IsStateName.forall_isStateChar {name : String} (h : IsStateName name) :
    ∀ c ∈ name.toList, isStateChar c = true := by
  obtain ⟨c, cs, hchars, hc, hcs⟩ := h
  rw [hchars]
  exact List.forall_mem_cons.mpr ⟨isStateChar_of_isStateStart hc, hcs⟩

theorem IsStateName.ne_nil {name : String} (h : IsStateName name) : name.toList ≠ [] := by
  obtain ⟨c, cs, hchars, -⟩ := h
  simp [hchars]

theorem IsStateName.plain {name : String} (h : IsStateName name) : Plain name.toList where
  slash := fun hmem => (isStateChar_apart (h.forall_isStateChar _ hmem)).2.1 rfl
  newline := fun hmem => (isStateChar_apart (h.forall_isStateChar _ hmem)).2.2 rfl
  head := fun c hc => (isStateChar_apart (h.forall_isStateChar c (List.mem_of_mem_head? hc))).1
  last := fun c hc => (isStateChar_apart (h.forall_isStateChar c (List.mem_of_getLast? hc))).1

def constants : List String :=
  ["never \x7b", "\x7d", "if", "fi", "fi;", "do", "od", "od;", "skip", "skip;", "false", "false;"]

theorem plain_constant : ∀ x ∈ constants, x.toList ≠ [] ∧ Plain x.toList := by
  have hchars : ∀ x ∈ constants, x.toList ≠ [] ∧ '/' ∉ x.toList ∧ '\n' ∉ x.toList ∧
      x.toList.head?.all (fun c => !Text.isBlank c) = true ∧
      x.toList.getLast?.all (fun c => !Text.isBlank c) = true := by
    decide +kernel
  intro x hx
  obtain ⟨hne, hslash, hnewline, hhead, hlast⟩ := hchars x hx
  refine ⟨hne, hslash, hnewline, ?_, ?_⟩
  · intro c hc
    rw [Option.mem_def.mp hc] at hhead
    simpa using hhead
  · intro c hc
    rw [Option.mem_def.mp hc] at hlast
    simpa using hlast

theorem plain_singleton {c : Char} (hslash : '/' ≠ c) (hnewline : '\n' ≠ c)
    (hblank : Text.isBlank c = false) : Plain [c] :=
  ⟨by simpa using hslash, by simpa using hnewline, by simpa using hblank, by simpa using hblank⟩

theorem plain_label {name : String} (h : IsStateName name) : Plain (name ++ ":").toList := by
  rw [String.toList_append]
  exact h.plain.append (plain_singleton (by decide) (by decide) (by decide))

theorem plain_option {scope : Scope} {guard target : String} {d : Diagram n} {tail : List Char}
    (hguard : scope.compileText guard = .ok d) (hline : '\n' ∉ guard.toList)
    (htarget : IsStateName target) (htail : tail = [] ∨ tail = [';']) :
    Plain (":: ".toList ++ guard.toList ++ (" -> goto ".toList ++ target.toList ++ tail)) := by
  have hslash : '/' ∉ guard.toList := by
    obtain ⟨f, hparse, -⟩ := Model.compileText_eq_ok.mp hguard
    obtain ⟨tokens, hscan, -⟩ := Formula.parse_eq_ok_iff.mp hparse
    exact Token.slash_not_mem_of_scan hscan
  have hend : Plain (target.toList ++ tail) := by
    rcases htail with rfl | rfl
    · exact htarget.plain.append plain_nil
    · exact htarget.plain.append (plain_singleton (by decide) (by decide) (by decide))
  have hcolon : Plain [':'] := plain_singleton (by decide) (by decide) (by decide)
  have hmiddle : ∀ c : Char, c ∉ ' ' :: " -> goto ".toList → c ∉ guard.toList →
      c ∉ ' ' :: (guard.toList ++ " -> goto ".toList) := by
    intro c hfixed hguard
    rw [List.mem_cons] at hfixed
    rw [List.mem_cons, List.mem_append]
    tauto
  have haround := (hcolon.append hcolon).around hend (by simp) (by simp [htarget.ne_nil])
    (hmiddle '/' (by decide) hslash) (hmiddle '\n' (by decide) hline)
  rw [List.append_assoc " -> goto ".toList, ← List.append_assoc, List.append_assoc ":: ".toList]
  rwa [← List.append_assoc] at haround

theorem read_label {name : String} (h : IsStateName name) :
    Line.read (name ++ ":").toList = .label name := by
  obtain ⟨c, cs, hchars, hc, hcs⟩ := h
  have hname : stateName (c :: cs ++ [':']) = some (c :: cs, [':']) :=
    stateName_append hc hcs (by simpa using (by decide : isStateChar ':' = false))
  have hlabel : label (name ++ ":").toList = some name := by
    unfold label
    rw [String.toList_append, hchars]
    show (stateName (c :: cs ++ [':']) >>= _) = _
    rw [hname]
    show (if [':'].dropWhile isSeparator = [':'] then some (String.ofList (c :: cs)) else none) = _
    rw [if_pos (by decide), ← hchars, String.ofList_toList]
  unfold Line.read
  rw [hlabel]

theorem read_constant :
    (∀ x ∈ Block.brackets, Line.read x.1.toList = .idle ∧ Line.read x.2.toList = .idle) ∧
      (∀ x ∈ ["skip", "skip;"], Line.read x.toList = .loop) ∧
      ∀ x ∈ ["false", "false;"], Line.read x.toList = .idle := by
  decide +kernel

theorem idxOf?_of_mem {names : List String} {x : String} (h : x ∈ names) :
    names.idxOf? x = some (names.idxOf x) := by
  obtain ⟨t, ht⟩ := Option.isSome_iff_exists.mp (List.isSome_idxOf?.mpr h)
  rw [List.idxOf_eq_getD_idxOf?, ht]
  rfl

def triples (a : Automaton n) : List (Nat × Nat × Diagram n) :=
  a.edges.map fun e => (e.source.val, e.target.val, e.label)

structure Grows (a a' : Automaton n) (new : List (Nat × Nat × Diagram n)) : Prop where
  size : a'.size = a.size
  initial : a'.initial.map Fin.val = a.initial.map Fin.val
  accepting : a'.accepting.map Fin.val = a.accepting.map Fin.val
  triples : triples a' = NeverClaim.triples a ++ new

theorem Grows.refl (a : Automaton n) : Grows a a [] := ⟨rfl, rfl, rfl, (List.append_nil _).symm⟩

theorem Grows.trans {a b c : Automaton n} {new new' : List (Nat × Nat × Diagram n)}
    (h : Grows a b new) (h' : Grows b c new') : Grows a c (new ++ new') where
  size := h'.size.trans h.size
  initial := h'.initial.trans h.initial
  accepting := h'.accepting.trans h.accepting
  triples := by rw [h'.triples, h.triples, List.append_assoc]

theorem exists_addEdge {a : Automaton n} {q t : Nat} (hq : q < a.size) (ht : t < a.size)
    (d : Diagram n) : ∃ a', a.addEdge q t d = .ok a' ∧ Grows a a' [(q, t, d)] :=
  ⟨_, a.addEdge_eq_ok hq ht d, rfl, rfl, rfl, by simp [triples]⟩

/-- Lines that are kept by layout, declare the given names and add the given edges, while the
current state changes from one to the other. -/
structure Segment (scope : Scope) (names : List String) (lines : List (List Char))
    (start finish : Option Nat) (declared : List String) (new : List (Nat × Nat × Diagram n)) :
    Prop where
  plain : ∀ l ∈ lines, l ≠ [] ∧ Plain l
  labels : Line.labels (lines.map Line.read) = declared
  adds : ∀ a : Automaton n, a.size = names.length → ∃ a',
    lines.foldlM (fun s l => addLine scope names l s) (a, start) = .ok (a', finish) ∧ Grows a a' new

namespace Segment

variable {scope : Scope} {names : List String}

theorem nil (q : Option Nat) : Segment (n := n) scope names [] q q [] [] where
  plain := by simp
  labels := rfl
  adds := fun a _ => ⟨a, rfl, .refl a⟩

theorem append {lines lines' : List (List Char)} {q₁ q₂ q₃ : Option Nat}
    {declared declared' : List String} {new new' : List (Nat × Nat × Diagram n)}
    (h : Segment scope names lines q₁ q₂ declared new)
    (h' : Segment scope names lines' q₂ q₃ declared' new') :
    Segment scope names (lines ++ lines') q₁ q₃ (declared ++ declared') (new ++ new') where
  plain := List.forall_mem_append.mpr ⟨h.plain, h'.plain⟩
  labels := by
    rw [← h.labels, ← h'.labels, List.map_append]
    exact List.filterMap_append
  adds := by
    intro a ha
    obtain ⟨b, hb, hgrows⟩ := h.adds a ha
    obtain ⟨c, hc, hgrows'⟩ := h'.adds b (hgrows.size.trans ha)
    refine ⟨c, ?_, hgrows.trans hgrows'⟩
    rw [List.foldlM_append, hb, Attempt.ok_bind, hc]

theorem single {line : List Char} {start finish : Option Nat} {declared : List String}
    {new : List (Nat × Nat × Diagram n)} (hplain : line ≠ [] ∧ Plain line)
    (hlabels : Line.labels [Line.read line] = declared)
    (hadds : ∀ a : Automaton n, a.size = names.length → ∃ a',
      addLine scope names line (a, start) = .ok (a', finish) ∧ Grows a a' new) :
    Segment scope names [line] start finish declared new where
  plain := List.forall_mem_singleton.mpr hplain
  labels := hlabels
  adds := by
    intro a ha
    obtain ⟨a', ha', hgrows⟩ := hadds a ha
    refine ⟨a', ?_, hgrows⟩
    rw [List.foldlM_cons, ha', Attempt.ok_bind]
    rfl

theorem label {name : String} {k : Nat} (hname : IsStateName name)
    (hk : names.idxOf? name = some k) (start : Option Nat) :
    Segment (n := n) scope names [(name ++ ":").toList] start (some k) [name] [] := by
  apply single
  · exact ⟨by simp [hname.ne_nil], plain_label hname⟩
  · rw [read_label hname]
    rfl
  · intro a _
    refine ⟨a, addLine_of_none ?_, .refl a⟩
    unfold readLine
    rw [read_label hname]
    simp only [hk]
    rfl

theorem idle {line : List Char} (hplain : line ≠ [] ∧ Plain line) (hread : Line.read line = .idle)
    (k : Nat) : Segment (n := n) scope names [line] (some k) (some k) [] [] := by
  apply single hplain
  · rw [hread]
    rfl
  · intro a _
    refine ⟨a, addLine_of_none ?_, .refl a⟩
    unfold readLine
    rw [hread]
    rfl

theorem loop {line : List Char} (hplain : line ≠ [] ∧ Plain line) (hread : Line.read line = .loop)
    {k : Nat} (hk : k < names.length) :
    Segment (n := n) scope names [line] (some k) (some k) [] [(k, k, .const true)] := by
  apply single hplain
  · rw [hread]
    rfl
  · intro a ha
    obtain ⟨a', ha', hgrows⟩ := exists_addEdge (ha ▸ hk) (ha ▸ hk) (.const true)
    refine ⟨a', addLine_of_some ?_ ha', hgrows⟩
    unfold readLine
    rw [hread]
    rfl

theorem option {line : List Char} {guard target : String} {d : Diagram n} {k t : Nat}
    (hplain : line ≠ [] ∧ Plain line) (hread : Line.read line = .option guard target)
    (hguard : scope.compileText guard = .ok d) (hk : k < names.length)
    (ht : names.idxOf? target = some t) :
    Segment scope names [line] (some k) (some k) [] [(k, t, d)] := by
  apply single hplain
  · rw [hread]
    rfl
  · intro a ha
    obtain ⟨a', ha', hgrows⟩ := exists_addEdge (ha ▸ hk) (ha ▸ lt_of_idxOf? ht) d
    refine ⟨a', addLine_of_some ?_ ha', hgrows⟩
    unfold readLine
    rw [hread]
    simp only [ht, hguard]
    rfl

theorem item (hnames : ∀ x ∈ names, IsStateName x) {i : Item} {line : String} {k : Nat}
    (hline : i.Written line) (hi : i.Accepted n scope names) (hk : k < names.length) :
    Segment scope names [line.toList] (some k) (some k) []
      ((i.edges scope names k : List (Nat × Diagram n)).map (k, ·)) := by
  cases i with
  | skip =>
    have hmem : line ∈ ["skip", "skip;"] := by
      rcases hline with rfl | rfl <;> decide
    have hconstant : ∀ x ∈ ["skip", "skip;"], x ∈ constants := by decide
    exact loop (plain_constant line (hconstant line hmem)) (read_constant.2.1 line hmem) hk
  | stuck =>
    have hmem : line ∈ ["false", "false;"] := by
      rcases hline with rfl | rfl <;> decide
    have hconstant : ∀ x ∈ ["false", "false;"], x ∈ constants := by decide
    exact idle (plain_constant line (hconstant line hmem)) (read_constant.2.2 line hmem) k
  | option guard target =>
    obtain ⟨hnewline, ⟨d, hd⟩, htarget⟩ := hi
    obtain ⟨tail, htail, hchars⟩ : ∃ tail, (tail = [] ∨ tail = [';']) ∧ line.toList =
        ":: ".toList ++ guard.toList ++ (" -> goto ".toList ++ target.toList ++ tail) := by
      rcases hline with rfl | rfl
      · refine ⟨[], .inl rfl, ?_⟩
        simp only [Item.text, String.toList_append, List.append_assoc, List.append_nil]
      · refine ⟨";".toList, .inr rfl, ?_⟩
        simp only [Item.text, String.toList_append, List.append_assoc]
    have hplain := plain_option hd hnewline (hnames target htarget) htail
    obtain ⟨core, hcore, hread⟩ := exists_read_option hd (hnames target htarget) htail
    rw [← hchars] at hplain hread
    have hedges : (Item.option guard target).edges scope names k = [(names.idxOf target, d)] := by
      rw [Item.edges, hd]
    rw [hedges]
    exact option ⟨by simp [hchars], hplain⟩ hread hcore hk (idxOf?_of_mem htarget)

theorem items (hnames : ∀ x ∈ names, IsStateName x) {k : Nat} (hk : k < names.length)
    {is : List Item} {lines : List String} (hlines : List.Forall₂ Item.Written is lines)
    (his : ∀ i ∈ is, i.Accepted n scope names) :
    Segment scope names (lines.map String.toList) (some k) (some k) []
      ((is.flatMap (Item.edges scope names k) : List (Nat × Diagram n)).map (k, ·)) := by
  induction hlines with
  | nil => exact nil _
  | cons hline _ ih =>
    rw [List.forall_mem_cons] at his
    rw [List.flatMap_cons, List.map_append]
    exact (item hnames hline his.1 hk).append (ih his.2)

theorem block (hnames : ∀ x ∈ names, IsStateName x) {b : Block} {lines : List String} {k : Nat}
    (hlines : b.Written lines) (hb : ∀ i ∈ b.items, i.Accepted n scope names)
    (hk : names.idxOf? b.name = some k) (start : Option Nat) :
    Segment scope names (lines.map String.toList) start (some k) [b.name]
      ((b.edges scope names k : List (Nat × Diagram n)).map (k, ·)) := by
  have hlt := lt_of_idxOf? hk
  have hmem : b.name ∈ names := List.isSome_idxOf?.mp (by rw [hk, Option.isSome_some])
  have hlabel : Segment (n := n) scope names [(b.name ++ ":").toList] start (some k) [b.name] [] :=
    label (hnames b.name hmem) hk start
  obtain ⟨body, hbody, rfl | ⟨x, hx, rfl⟩⟩ := hlines
  · exact hlabel.append (items hnames hlt hbody hb)
  · have hconstant : ∀ x ∈ Block.brackets, x.1 ∈ constants ∧ x.2 ∈ constants := by decide
    obtain ⟨hopen, hclose⟩ := hconstant x hx
    obtain ⟨hreadOpen, hreadClose⟩ := read_constant.1 x hx
    have hitems := (items hnames hlt hbody hb).append (idle (plain_constant _ hclose) hreadClose k)
    rw [List.append_nil, List.append_nil] at hitems
    rw [List.map_cons, List.map_cons, List.map_append]
    exact hlabel.append ((idle (plain_constant _ hopen) hreadOpen k).append hitems)

/-- The states of a claim from the one with number `j` on. -/
theorem blocks (hnames : ∀ x ∈ names, IsStateName x) {bs : List Block} {lines : List (List String)}
    (hlines : List.Forall₂ Block.Written bs lines)
    (hbs : ∀ b ∈ bs, ∀ i ∈ b.items, i.Accepted n scope names) (j : Nat)
    (hindex : ∀ i b, bs[i]? = some b → names.idxOf? b.name = some (j + i)) (start : Option Nat) :
    ∃ finish, Segment scope names (lines.flatten.map String.toList) start finish
      (bs.map Block.name) ((bs.zipIdx j).flatMap fun x =>
        (x.1.edges scope names x.2 : List (Nat × Diagram n)).map (x.2, ·)) := by
  induction hlines generalizing j start with
  | nil => exact ⟨start, nil start⟩
  | @cons b lines bs _ hb _ ih =>
    rw [List.forall_mem_cons] at hbs
    have hfirst := block hnames hb hbs.1 (hindex 0 b rfl) start
    obtain ⟨finish, hrest⟩ := ih hbs.2 (j + 1) (fun i c hc => by
      rw [hindex (i + 1) c hc]
      congr 1
      omega) (some j)
    refine ⟨finish, ?_⟩
    rw [List.flatten_cons, List.map_append, List.zipIdx_cons, List.flatMap_cons]
    exact hfirst.append hrest

end Segment

theorem firstRepeated_eq_none {seen xs : List String} (hseen : ∀ x ∈ xs, x ∉ seen)
    (hxs : xs.Nodup) : firstRepeated seen xs = none := by
  induction xs generalizing seen with
  | nil => rfl
  | cons x xs ih =>
    rw [List.forall_mem_cons] at hseen
    rw [List.nodup_cons] at hxs
    have hrest : ∀ y ∈ xs, y ∉ x :: seen := by
      intro y hy hmem
      rcases List.mem_cons.mp hmem with rfl | hmem
      · exact hxs.1 hy
      · exact hseen.2 y hy hmem
    rw [firstRepeated, if_neg (by simpa using hseen.1), ih hrest hxs.2]

theorem isInitialName_iff {name : String} : isInitialName name = true ↔ Initial name := by
  unfold isInitialName Initial
  rw [Bool.or_eq_true, beq_iff_eq, String.endsWith_eq_endsWith_toSlice,
    String.Slice.endsWith_string_iff, String.copy_toSlice, or_comm]

theorem isAcceptingName_iff {name : String} : isAcceptingName name = true ↔ Accepting name :=
  String.startsWith_string_iff

theorem mem_chosen {names : List String} {p : String → Bool} {q : Fin names.length} :
    q ∈ ((names.zip (List.finRange names.length)).filter fun x => p x.1).map (·.2) ↔
      p (names.get q) = true := by
  have hzip : names.zip (List.finRange names.length) =
      (List.finRange names.length).map fun q => (names.get q, q) := by
    have hmap : ((List.finRange names.length).map names.get).zip
        ((List.finRange names.length).map id) = _ := List.zip_map'
    rw [List.map_get_finRange, List.map_id] at hmap
    exact hmap
  rw [hzip]
  simp

theorem mem_take_finRange {m : Nat} {q : Fin m} : q ∈ (List.finRange m).take 1 ↔ q.val = 0 := by
  cases m with
  | zero => exact q.elim0
  | succ m =>
    rw [List.finRange_succ, List.take_succ_cons, List.take_zero, List.mem_singleton, Fin.ext_iff]
    rfl

theorem mem_initial_skeleton {names : List String} {q : Fin names.length} :
    q ∈ (skeleton n names).initial ↔
      Initial (names.get q) ∨ q.val = 0 ∧ ∀ x ∈ names, ¬ Initial x := by
  have hchosen : ∀ q : Fin names.length, q ∈ ((names.zip (List.finRange names.length)).filter
      fun x => isInitialName x.1).map (·.2) ↔ Initial (names.get q) :=
    fun q => mem_chosen.trans isInitialName_iff
  unfold skeleton
  dsimp only
  split
  · next hnil =>
    rw [hnil] at hchosen
    have hnone : ∀ x ∈ names, ¬ Initial x := by
      intro x hx
      obtain ⟨q, rfl⟩ := List.get_of_mem hx
      simpa using (hchosen q).not.mp List.not_mem_nil
    rw [mem_take_finRange]
    exact ⟨fun h => .inr ⟨h, hnone⟩, fun h => (h.resolve_left (hnone _ (List.get_mem _ _))).1⟩
  · next hne =>
    obtain ⟨r, hr⟩ := List.exists_mem_of_ne_nil _ hne
    rw [hchosen]
    refine ⟨.inl, fun h => h.resolve_right fun hnone => ?_⟩
    exact hnone.2 _ (List.get_mem _ _) ((hchosen r).mp hr)

theorem mem_accepting_skeleton {names : List String} {q : Fin names.length} :
    q ∈ (skeleton n names).accepting ↔ Accepting (names.get q) :=
  mem_chosen.trans isAcceptingName_iff

theorem filter_edges {f : Block → Nat → List (Nat × Diagram n)} {bs : List Block} {b : Block}
    {i : Nat} (h : bs[i]? = some b) (j : Nat) :
    (((bs.zipIdx j).flatMap fun x => (f x.1 x.2).map (x.2, ·)).filter (·.1 == j + i)).map Prod.snd =
      f b (j + i) := by
  induction bs generalizing i j with
  | nil => simp at h
  | cons c bs ih =>
    rw [List.zipIdx_cons, List.flatMap_cons, List.filter_append, List.map_append]
    cases i with
    | zero =>
      obtain rfl : c = b := Option.some.inj h
      have hlater : ((bs.zipIdx (j + 1)).flatMap fun x => (f x.1 x.2).map (x.2, ·)).filter
          (·.1 == j + 0) = [] := by
        rw [List.filter_eq_nil_iff]
        intro x hx
        obtain ⟨y, hy, hx⟩ := List.mem_flatMap.mp hx
        obtain ⟨z, -, rfl⟩ := List.mem_map.mp hx
        have hle := List.le_snd_of_mem_zipIdx hy
        simp only [beq_iff_eq]
        omega
      have hfirst : ((f c j).map (j, ·)).filter (·.1 == j + 0) = (f c j).map (j, ·) := by
        rw [List.filter_eq_self]
        intro x hx
        obtain ⟨z, -, rfl⟩ := List.mem_map.mp hx
        exact beq_self_eq_true j
      rw [hfirst, hlater, List.map_map, List.map_nil, List.append_nil]
      exact List.map_id (f c j)
    | succ i =>
      have hfirst : ((f c j).map (j, ·)).filter (·.1 == j + (i + 1)) = [] := by
        rw [List.filter_eq_nil_iff]
        intro x hx
        obtain ⟨z, -, rfl⟩ := List.mem_map.mp hx
        simp only [beq_iff_eq]
        omega
      rw [hfirst, show j + (i + 1) = j + 1 + i by omega, ih h]
      rfl

theorem map_outgoing (a : Automaton n) (k : Nat) :
    (a.outgoing k).map (fun e => (e.target.val, e.label)) =
      ((triples a).filter (·.1 == k)).map Prod.snd := by
  unfold triples Automaton.outgoing
  rw [List.filter_map, List.map_map]
  rfl

theorem body_eq {text : String} {inner : List (List Char)}
    (h : significantLines text.toList = ["never \x7b".toList] ++ inner ++ ["\x7d".toList])
    (hinner : inner.head? ≠ some "\x7b".toList) : body text = some inner := by
  have hne : inner ++ ["\x7d".toList] ≠ [] := by simp
  obtain ⟨l, more, hrest⟩ := List.exists_cons_of_ne_nil hne
  have hnever : (Text.after "never".toList "never \x7b".toList).isSome = true := by decide
  unfold body
  rw [h, List.append_assoc, hrest]
  show (if (Text.after "never".toList "never \x7b".toList).isSome &&
    (l :: more).getLast? == some "\x7d".toList then _ else _) = _
  rw [← hrest, List.getLast?_concat, hnever, if_pos (by simp), List.dropLast_concat]
  split
  · next heq => exact absurd rfl hinner
  · rfl

theorem getElem?_map_name {blocks : List Block} {k : Nat} {b : Block} (h : blocks[k]? = some b) :
    (blocks.map Block.name)[k]? = some b.name := by
  rw [List.getElem?_map, h]
  rfl

theorem head?_ne_brace {blocks : List Block} {lines : List (List String)} (hne : blocks ≠ [])
    (hnames : ∀ b ∈ blocks, IsStateName b.name) (h : List.Forall₂ Block.Written blocks lines) :
    (lines.flatten.map String.toList).head? ≠ some "\x7b".toList := by
  cases h with
  | nil => exact absurd rfl hne
  | @cons b ls _ _ hb _ =>
    have hlabel : ∃ more, ls = (b.name ++ ":") :: more := by
      obtain ⟨body, -, rfl | ⟨x, -, rfl⟩⟩ := hb
      · exact ⟨_, rfl⟩
      · exact ⟨_, rfl⟩
    obtain ⟨more, rfl⟩ := hlabel
    intro heq
    have hlength := congrArg List.length (Option.some.inj heq)
    have hpos := List.length_pos_of_ne_nil (hnames b List.mem_cons_self).ne_nil
    rw [String.toList_append, List.length_append] at hlength
    have hcolon : ":".toList.length = 1 := rfl
    have hbrace : "\x7b".toList.length = 1 := rfl
    omega

/-- An automaton that has grown from the states of a claim by the edges of the claim. -/
theorem IsAutomatonOf.of_grows {scope : Scope} {blocks : List Block} {a : Automaton n}
    (h : Grows (skeleton n (blocks.map Block.name)) a ((blocks.zipIdx 0).flatMap fun x =>
      (x.1.edges scope (blocks.map Block.name) x.2).map (x.2, ·))) :
    IsAutomatonOf scope blocks a := by
  have hsize : a.size = (blocks.map Block.name).length := h.size
  have hget : ∀ (q : Fin a.size) (b : Block), blocks[q.val]? = some b →
      (blocks.map Block.name).get (q.cast hsize) = b.name := by
    intro q b hb
    exact (List.getElem?_eq_some_iff.mp (getElem?_map_name hb)).2
  have hmem : ∀ (q : Fin a.size) {l : List (Fin a.size)}
      {l' : List (Fin (blocks.map Block.name).length)},
      l.map Fin.val = l'.map Fin.val → (q ∈ l ↔ q.cast hsize ∈ l') := by
    intro q l l' heq
    rw [← List.mem_map_of_injective Fin.val_injective, heq,
      ← List.mem_map_of_injective Fin.val_injective (a := q.cast hsize)]
    rfl
  refine ⟨by simpa using hsize, ?_, ?_, ?_⟩
  · intro k b hb
    rw [map_outgoing, h.triples]
    have hfilter := filter_edges (n := n)
      (f := fun b k => b.edges scope (blocks.map Block.name) k) hb 0
    rw [Nat.zero_add] at hfilter
    exact hfilter
  · intro q b hb
    have hinitial := mem_initial_skeleton (n := n) (q := q.cast hsize)
    rw [hget q b hb, List.forall_mem_map] at hinitial
    exact (hmem q h.initial).trans hinitial
  · intro q b hb
    have haccepting := mem_accepting_skeleton (n := n) (q := q.cast hsize)
    rw [hget q b hb] at haccepting
    exact (hmem q h.accepting).trans haccepting

/-- However it is laid out, the text of a claim is read as the automaton of the claim. -/
theorem parse_written {scope : Scope} {blocks : List Block} {text : String}
    (hblocks : WellFormed n scope blocks) (htext : Written blocks text) :
    ∃ a : Automaton n, parse scope text = .ok a ∧ IsAutomatonOf scope blocks a := by
  obtain ⟨lines, hlines, hlayout⟩ := htext
  have hnames : ∀ x ∈ blocks.map Block.name, IsStateName x := by
    rw [List.forall_mem_map]
    exact hblocks.isStateName
  have hindex : ∀ i b, blocks[i]? = some b →
      (blocks.map Block.name).idxOf? b.name = some (0 + i) := by
    intro i b hb
    have hname := getElem?_map_name hb
    obtain ⟨hi, hget⟩ := List.getElem?_eq_some_iff.mp hname
    rw [idxOf?_of_mem (List.mem_of_getElem? hname), ← hget, hblocks.nodup.idxOf_getElem,
      Nat.zero_add]
  obtain ⟨finish, hsegment⟩ := Segment.blocks hnames hlines hblocks.accepted 0 hindex none
  have hplain : ∀ l ∈ ["never \x7b".toList] ++ lines.flatten.map String.toList ++ ["\x7d".toList],
      l ≠ [] ∧ Plain l := by
    simp only [List.forall_mem_append, List.forall_mem_singleton]
    exact ⟨⟨plain_constant _ (by decide), hsegment.plain⟩, plain_constant _ (by decide)⟩
  have hbody : body text = some (lines.flatten.map String.toList) :=
    body_eq (significantLines_of_layout hlayout hplain)
      (head?_ne_brace hblocks.nonempty hblocks.isStateName hlines)
  obtain ⟨a, ha, hgrows⟩ := hsegment.adds (skeleton n (blocks.map Block.name)) rfl
  refine ⟨a, ?_, .of_grows hgrows⟩
  have hrepeated : firstRepeated [] (blocks.map Block.name) = none :=
    firstRepeated_eq_none (by simp) hblocks.nodup
  have hempty : (blocks.map Block.name).isEmpty = false := by simp [hblocks.nonempty]
  have houtline : outline text = .ok (lines.flatten.map String.toList, blocks.map Block.name) := by
    unfold outline
    rw [hbody]
    simp only [hsegment.labels, hrepeated, hempty]
    rfl
  exact parse_of_outline houtline ha

/-- Waits for `p` to hold without `q`, and then stays. -/
def watch : List Block :=
  [⟨"T0_init", [.option "p -> q" "T0_init", .option "!(p -> q)" "accept_S1"]⟩,
    ⟨"accept_S1", [.skip]⟩]

def watchText : String :=
  "never \x7b /* p -> q */\nT0_init:\n\tif\n\t:: p -> q -> goto T0_init\n" ++
    "\t:: !(p -> q) -> goto accept_S1;\n\tfi;\n\naccept_S1:\n\tskip\n\x7d"

def watchScope : Scope := ⟨[("p", .variable 0 1), ("q", .variable 2 3)]⟩

theorem wellFormed_watch : WellFormed 4 watchScope watch where
  nonempty := by simp [watch]
  nodup := by decide
  isStateName := by
    have hfirst : IsStateName "T0_init" :=
      ⟨'T', "0_init".toList, by decide +kernel, by decide,
        List.all_eq_true.mp (by decide +kernel)⟩
    have hsecond : IsStateName "accept_S1" :=
      ⟨'a', "ccept_S1".toList, by decide +kernel, by decide,
        List.all_eq_true.mp (by decide +kernel)⟩
    simp only [watch, List.forall_mem_cons]
    exact ⟨hfirst, hsecond, by simp⟩
  accepted := by
    have hparse : Formula.parse "p -> q" = .ok (.binary .imp (.ident "p") (.ident "q")) :=
      Formula.parse_render (f := .binary .imp (.ident "p") (.ident "q")) (by decide +kernel)
    have hparse' : Formula.parse "!(p -> q)" =
        .ok (.not (.binary .imp (.ident "p") (.ident "q"))) :=
      Formula.parse_render (f := .not (.binary .imp (.ident "p") (.ident "q"))) (by decide +kernel)
    have hcompile : watchScope.compile (.binary .imp (.ident "p") (.ident "q")) =
        .ok (.combine Connective.imp.eval (.var 0) (.var 2) : Diagram 4) := by
      rw [Scope.compile_eq]
      simp only [Scope.compileIn]
      rfl
    have hcompile' : watchScope.compile (.not (.binary .imp (.ident "p") (.ident "q"))) =
        .ok (Diagram.combine Connective.imp.eval (.var 0) (.var 2) : Diagram 4).not := by
      rw [Scope.compile_eq]
      simp only [Scope.compileIn]
      rfl
    have hfirst : (Item.option "p -> q" "T0_init").Accepted 4 watchScope (watch.map Block.name) :=
      ⟨by decide +kernel, ⟨_, Model.compileText_eq_ok.mpr ⟨_, hparse, hcompile⟩⟩, by decide⟩
    have hsecond :
        (Item.option "!(p -> q)" "accept_S1").Accepted 4 watchScope (watch.map Block.name) :=
      ⟨by decide +kernel, ⟨_, Model.compileText_eq_ok.mpr ⟨_, hparse', hcompile'⟩⟩, by decide⟩
    simp only [watch, List.forall_mem_cons] at hfirst hsecond ⊢
    exact ⟨⟨hfirst, hsecond, by simp⟩, ⟨trivial, by simp⟩, by simp⟩

def row (indent line tail rest : List Char) : List Char := indent ++ line ++ tail ++ '\n' :: rest

theorem Layout.row {indent line tail rest : List Char} {lines : List (List Char)}
    (h : Layout lines rest) (hindent : Blank indent) (htail : Trailer tail) :
    Layout (line :: lines) (NeverClaim.row indent line tail rest) :=
  .line ⟨indent, tail, hindent, htail, rfl⟩ h

theorem written_watch : Written watch watchText := by
  have htab : Blank ['\t'] := List.forall_mem_singleton.mpr ⟨by decide, by decide⟩
  have hnil : Blank [] := by simp [Blank]
  have hcomment : Trailer (' ' :: ('/' :: '*' :: " p -> q ".toList ++ ['*', '/'])) :=
    .blank (by decide) (by decide) (.comment (by decide +kernel) .nil)
  have htext : watchText.toList =
      row [] "never \x7b".toList (' ' :: ('/' :: '*' :: " p -> q ".toList ++ ['*', '/']))
        (row [] "T0_init:".toList []
          (row ['\t'] "if".toList []
            (row ['\t'] ":: p -> q -> goto T0_init".toList []
              (row ['\t'] ":: !(p -> q) -> goto accept_S1;".toList []
                (row ['\t'] "fi;".toList []
                  ([] ++ [] ++ [] ++ '\n' ::
                    (row [] "accept_S1:".toList []
                      (row ['\t'] "skip".toList [] ([] ++ "\x7d".toList ++ []))))))))) := by
    decide +kernel
  refine ⟨[["T0_init:", "if", ":: p -> q -> goto T0_init", ":: !(p -> q) -> goto accept_S1;",
    "fi;"], ["accept_S1:", "skip"]], ?_, ?_⟩
  · have hfirst : List.Forall₂ Item.Written
        [.option "p -> q" "T0_init", .option "!(p -> q)" "accept_S1"]
        [":: p -> q -> goto T0_init", ":: !(p -> q) -> goto accept_S1;"] :=
      .cons (.inl (by decide +kernel)) (.cons (.inr (by decide +kernel)) .nil)
    have hsecond : List.Forall₂ Item.Written [.skip] ["skip"] := .cons (.inl rfl) .nil
    exact .cons ⟨_, hfirst, .inr ⟨("if", "fi;"), by decide, by decide +kernel⟩⟩
      (.cons ⟨_, hsecond, .inl (by decide +kernel)⟩ .nil)
  · rw [htext]
    refine Layout.row ?_ hnil hcomment
    refine Layout.row ?_ hnil .nil
    refine Layout.row ?_ htab .nil
    refine Layout.row ?_ htab .nil
    refine Layout.row ?_ htab .nil
    refine Layout.row ?_ htab .nil
    refine Layout.blank ⟨[], [], hnil, .nil, rfl⟩ ?_
    refine Layout.row ?_ hnil .nil
    refine Layout.row ?_ htab .nil
    exact .last ⟨[], [], hnil, .nil, rfl⟩

/-- The arrow of the guard is not taken for that of the jump. -/
theorem parse_watch : WellFormed 4 watchScope watch ∧ Written watch watchText ∧
    ∃ a : Automaton 4, parse watchScope watchText = .ok a ∧ IsAutomatonOf watchScope watch a :=
  ⟨wellFormed_watch, written_watch, parse_written wellFormed_watch written_watch⟩

end SymbolicLtl.NeverClaim
