import Mathlib.Tactic.Common
import SymbolicLtl.Proofs.Formula.Scanning

/-!
Linear temporal logic over infinite words, and how a text is read as one of its formulas. The
operators before one operand bind tighter than those between two; a convention says how a chain of
operands with operators between them is bracketed. Whatever the convention, a text has at most one
reading.
-/
namespace SymbolicLtl

namespace Ltl

inductive UnaryOp where
  | not
  | next
  | always
  | eventually
deriving DecidableEq, Repr

inductive BinaryOp where
  | and
  | or
  | imp
  | iff
  | strongUntil
  | release
deriving DecidableEq, Repr

end Ltl

inductive Ltl where
  | const (value : Bool)
  | prop (name : String)
  | unary (op : Ltl.UnaryOp) (arg : Ltl)
  | binary (op : Ltl.BinaryOp) (left right : Ltl)
deriving DecidableEq, Repr

namespace Ltl

/-- An operator on a property of positions, at a position. -/
def UnaryOp.Holds (p : Nat → Prop) (i : Nat) : UnaryOp → Prop
  | .not => ¬ p i
  | .next => p (i + 1)
  | .always => ∀ j, i ≤ j → p j
  | .eventually => ∃ j, i ≤ j ∧ p j

def BinaryOp.Holds (p q : Nat → Prop) (i : Nat) : BinaryOp → Prop
  | .and => p i ∧ q i
  | .or => p i ∨ q i
  | .imp => p i → q i
  | .iff => p i ↔ q i
  | .strongUntil => ∃ j, i ≤ j ∧ q j ∧ ∀ k, i ≤ k → k < j → p k
  | .release => ∀ j, i ≤ j → q j ∨ ∃ k, i ≤ k ∧ k < j ∧ p k

/-- The formula is true of the infinite word from a position on. -/
def Holds (w : Nat → String → Bool) : Ltl → Nat → Prop
  | const v, _ => v = true
  | prop x, i => w i x = true
  | unary op a, i => op.Holds (Holds w a) i
  | binary op a b, i => op.Holds (Holds w a) (Holds w b) i

/-- A chain of operands with an operator between each two, and parentheses around the parts. -/
inductive Bracketing where
  | operand (φ : Ltl)
  | node (op : BinaryOp) (left right : Bracketing)

namespace Bracketing

def first : Bracketing → Ltl
  | operand φ => φ
  | node _ l _ => l.first

def rest : Bracketing → List (BinaryOp × Ltl)
  | operand _ => []
  | node op l r => l.rest ++ (op, r.first) :: r.rest

def toLtl : Bracketing → Ltl
  | operand φ => φ
  | node op l r => .binary op l.toLtl r.toLtl

theorem toLtl_of_rest_nil {b : Bracketing} (h : b.rest = []) : b.toLtl = b.first := by
  cases b with
  | operand φ => rfl
  | node op l r => simp [rest] at h

theorem toLtl_of_rest_singleton {b : Bracketing} {op : BinaryOp} {ψ : Ltl}
    (h : b.rest = [(op, ψ)]) : b.toLtl = .binary op b.first ψ := by
  cases b with
  | operand φ => simp [rest] at h
  | node o l r =>
    have hl : l.rest = [] := by
      have hlength := congrArg List.length h
      simp only [rest, List.length_append, List.length_cons, List.length_nil] at hlength
      exact List.length_eq_zero_iff.mp (by omega)
    rw [rest, hl, List.nil_append, List.cons.injEq, Prod.mk.injEq] at h
    obtain ⟨⟨rfl, hψ⟩, hr⟩ := h
    rw [toLtl, toLtl_of_rest_nil hl, toLtl_of_rest_nil hr, hψ, first]

/-- However a chain of conjunctions is bracketed, it says that all operands hold. -/
theorem holds_conjunction {b : Bracketing} (h : ∀ x ∈ b.rest, x.1 = .and)
    (w : Nat → String → Bool) (i : Nat) :
    b.toLtl.Holds w i ↔ b.first.Holds w i ∧ ∀ x ∈ b.rest, x.2.Holds w i := by
  induction b with
  | operand φ => simp [toLtl, first, rest]
  | node op l r ihl ihr =>
    simp only [rest, List.forall_mem_append, List.forall_mem_cons] at h ⊢
    obtain ⟨hl, hop, hr⟩ := h
    obtain rfl : op = .and := hop
    show l.toLtl.Holds w i ∧ r.toLtl.Holds w i ↔ _
    rw [ihl hl, ihr hr, first]
    tauto

end Bracketing

structure Convention where
  bracket : Ltl → List (BinaryOp × Ltl) → Bracketing
  first_bracket : ∀ φ rest, (bracket φ rest).first = φ
  rest_bracket : ∀ φ rest, (bracket φ rest).rest = rest

namespace Convention

def group (G : Convention) (φ : Ltl) (rest : List (BinaryOp × Ltl)) : Ltl :=
  (G.bracket φ rest).toLtl

variable (G : Convention)

@[simp] theorem group_nil (φ : Ltl) : G.group φ [] = φ := by
  unfold group
  rw [Bracketing.toLtl_of_rest_nil (G.rest_bracket φ []), G.first_bracket]

@[simp] theorem group_singleton (φ ψ : Ltl) (op : BinaryOp) :
    G.group φ [(op, ψ)] = .binary op φ ψ := by
  unfold group
  rw [Bracketing.toLtl_of_rest_singleton (G.rest_bracket φ [(op, ψ)]), G.first_bracket]

theorem holds_group_and (φ : Ltl) (ψs : List Ltl) (w : Nat → String → Bool) (i : Nat) :
    (G.group φ (ψs.map (.and, ·))).Holds w i ↔ ∀ ψ ∈ φ :: ψs, ψ.Holds w i := by
  have hand : ∀ x ∈ (G.bracket φ (ψs.map (.and, ·))).rest, x.1 = .and := by
    simp [G.rest_bracket]
  unfold group
  rw [Bracketing.holds_conjunction hand, G.first_bracket, G.rest_bracket]
  simp

end Convention

/-- Operators of a higher layer bind looser. -/
def BinaryOp.layer : BinaryOp → Nat
  | .strongUntil | .release => 1
  | .and => 2
  | .or => 3
  | .imp => 4
  | .iff => 5

/-- `a op b op c` is `a op (b op c)`. -/
def BinaryOp.groupsRight : BinaryOp → Bool
  | .strongUntil | .release | .imp => true
  | .and | .or | .iff => false

/-- Behind `a o b`, the operator takes `b` for its left operand. -/
def BinaryOp.TakesFrom (op o : BinaryOp) : Prop :=
  op.layer < o.layer ∨ op.layer = o.layer ∧ op.groupsRight = true

instance (op o : BinaryOp) : Decidable (op.TakesFrom o) :=
  inferInstanceAs (Decidable (_ ∨ _))

def Bracketing.attach : Bracketing → BinaryOp × Ltl → Bracketing
  | operand φ, (op, ψ) => node op (operand φ) (operand ψ)
  | node o l r, (op, ψ) =>
    if op.TakesFrom o then node o l (r.attach (op, ψ)) else node op (node o l r) (operand ψ)

theorem Bracketing.attach_spec (b : Bracketing) (x : BinaryOp × Ltl) :
    (b.attach x).first = b.first ∧ (b.attach x).rest = b.rest ++ [x] := by
  induction b with
  | operand φ => exact ⟨rfl, rfl⟩
  | node o l r _ ihr =>
    unfold attach
    split_ifs with h
    · simp [first, rest, ihr]
    · simp [first, rest]

theorem Bracketing.foldl_attach_spec (xs : List (BinaryOp × Ltl)) (b : Bracketing) :
    (xs.foldl attach b).first = b.first ∧ (xs.foldl attach b).rest = b.rest ++ xs := by
  induction xs generalizing b with
  | nil => simp
  | cons x xs ih =>
    obtain ⟨hfirst, hrest⟩ := b.attach_spec x
    obtain ⟨ihfirst, ihrest⟩ := ih (b.attach x)
    rw [List.foldl_cons, ihfirst, ihrest, hfirst, hrest]
    simp

/-- The usual convention, by the layers of the operators. -/
def Convention.usual : Convention where
  bracket φ rest := rest.foldl Bracketing.attach (.operand φ)
  first_bracket φ rest := (Bracketing.foldl_attach_spec rest (.operand φ)).1
  rest_bracket φ rest := (Bracketing.foldl_attach_spec rest (.operand φ)).2

inductive Symbol where
  | const (value : Bool)
  | prop (name : String)
  | unary (op : UnaryOp)
  | binary (op : BinaryOp)
  | lparen
  | rparen
deriving DecidableEq, Repr

def wordSymbol (text : String) : Symbol :=
  if text = "true" then .const true
  else if text = "false" then .const false
  else if text = "X" then .unary .next
  else if text = "U" then .binary .strongUntil
  else if text = "V" then .binary .release
  else .prop text

/-- The longest symbol that starts with `c` and goes on into `rest`, and how many characters of
`rest` belong to it. -/
def lexeme (c : Char) (rest : List Char) : Option (Symbol × Nat) :=
  if Token.isNameStart c then
    let tail := rest.takeWhile Token.isNameChar
    some (wordSymbol (String.ofList (c :: tail)), tail.length)
  else match c, rest with
    | '!', _ => some (.unary .not, 0)
    | '[', ']' :: _ => some (.unary .always, 1)
    | '<', '>' :: _ => some (.unary .eventually, 1)
    | '&', '&' :: _ => some (.binary .and, 1)
    | '|', '|' :: _ => some (.binary .or, 1)
    | '-', '>' :: _ => some (.binary .imp, 1)
    | '<', '-' :: '>' :: _ => some (.binary .iff, 2)
    | '(', _ => some (.lparen, 0)
    | ')', _ => some (.rparen, 0)
    | _, _ => none

def scan : List Char → Option (List Symbol)
  | [] => some []
  | c :: rest =>
    if Text.isBlank c then scan rest
    else match lexeme c rest with
      | none => none
      | some (symbol, more) => (scan (rest.drop more)).map (symbol :: ·)
termination_by cs => cs.length
decreasing_by all_goals simp only [List.length_cons, List.length_drop]; omega

theorem scan_nil : scan [] = some [] := by
  unfold scan
  rfl

theorem scan_blank {c : Char} {rest : List Char} (h : Text.isBlank c = true) :
    scan (c :: rest) = scan rest := by
  conv_lhs => unfold scan
  rw [if_pos h]

theorem scan_cons {c : Char} {rest : List Char} {symbol : Symbol} {more : Nat}
    (hblank : ¬ Text.isBlank c = true) (hlexeme : lexeme c rest = some (symbol, more)) :
    scan (c :: rest) = (scan (rest.drop more)).map (symbol :: ·) := by
  conv_lhs => unfold scan
  rw [if_neg hblank, hlexeme]

def Apart (l rest : List Char) : Prop :=
  ∀ c ∈ l.getLast?, Token.isNameChar c = true → Token.Delimited rest

theorem Apart.of_suffix {l l' rest : List Char} (h : Apart l rest) (hsuffix : l' <:+ l) :
    Apart l' rest := by
  intro c hc
  apply h c
  obtain ⟨t, rfl⟩ := hsuffix
  rw [Option.mem_def] at hc ⊢
  rw [List.getLast?_append, hc, Option.some_or]

/-- A symbol is not changed by a text apart from it. -/
theorem lexeme_append {c : Char} {l rest : List Char} {symbol : Symbol} {more : Nat}
    (h : lexeme c l = some (symbol, more)) (hapart : Apart (c :: l) rest) :
    lexeme c (l ++ rest) = some (symbol, more) ∧ more ≤ l.length := by
  unfold lexeme at h ⊢
  split_ifs at h ⊢ with hstart
  · cases h
    have hdelimited : (∀ d ∈ l, Token.isNameChar d = true) → Token.Delimited rest := by
      intro hl
      have hchars : ∀ d ∈ c :: l, Token.isNameChar d = true :=
        List.forall_mem_cons.mpr ⟨Token.isNameChar_of_isNameStart hstart, hl⟩
      obtain ⟨d, hd⟩ : ∃ d, (c :: l).getLast? = some d := ⟨_, List.getLast?_cons⟩
      exact hapart d hd (hchars d (List.mem_of_getLast? hd))
    rw [Token.takeWhile_append_of_delimited hdelimited]
    exact ⟨rfl, (List.takeWhile_prefix _).length_le⟩
  · split at h <;> cases h <;> simp

theorem scan_append {l rest : List Char} {ss ts : List Symbol} (hl : scan l = some ss)
    (hrest : scan rest = some ts) (hapart : Apart l rest) :
    scan (l ++ rest) = some (ss ++ ts) := by
  induction l using scan.induct generalizing ss with
  | case1 =>
    rw [scan_nil] at hl
    cases hl
    exact hrest
  | case2 c l hblank ih =>
    rw [scan_blank hblank] at hl
    rw [List.cons_append, scan_blank hblank]
    exact ih hl (hapart.of_suffix (List.suffix_cons c l))
  | case3 c l hblank hnone =>
    unfold scan at hl
    rw [if_neg hblank, hnone] at hl
    cases hl
  | case4 c l hblank symbol more hlexeme ih =>
    obtain ⟨hsame, hmore⟩ := lexeme_append hlexeme hapart
    rw [scan_cons hblank hlexeme, Option.map_eq_some_iff] at hl
    obtain ⟨ss, hss, rfl⟩ := hl
    have hdrop : l.drop more <:+ c :: l := (List.drop_suffix more l).trans (List.suffix_cons c l)
    rw [List.cons_append, scan_cons hblank hsame, List.drop_append_of_le_length hmore,
      ih hss (hapart.of_suffix hdrop)]
    rfl

/-- The symbols are a chain: the operand `φ`, and behind it operators with an operand each. A chain
of one operand is an operand. -/
inductive Derives (G : Convention) : List Symbol → Ltl → List (BinaryOp × Ltl) → Prop
  | const (v : Bool) : Derives G [.const v] (.const v) []
  | prop (x : String) : Derives G [.prop x] (.prop x) []
  | unary {ss : List Symbol} {φ : Ltl} (op : UnaryOp) :
    Derives G ss φ [] → Derives G (.unary op :: ss) (.unary op φ) []
  | parens {ss : List Symbol} {φ : Ltl} {rest : List (BinaryOp × Ltl)} :
    Derives G ss φ rest → Derives G (.lparen :: ss ++ [.rparen]) (G.group φ rest) []
  | chain {ss ts : List Symbol} {φ ψ : Ltl} {rest : List (BinaryOp × Ltl)} (op : BinaryOp) :
    Derives G ss φ [] → Derives G ts ψ rest →
      Derives G (ss ++ .binary op :: ts) φ ((op, ψ) :: rest)

def Reads (G : Convention) (text : String) (χ : Ltl) : Prop :=
  ∃ ss φ rest, scan text.toList = some ss ∧ Derives G ss φ rest ∧ G.group φ rest = χ

/-- What is open in front of an operand. -/
inductive Opened where
  | lparen
  | unary (op : UnaryOp)
  | chain (φ : Ltl) (rest : List (BinaryOp × Ltl)) (op : BinaryOp)

/-- A reader of symbols: it waits for an operand, or it has a chain. -/
inductive Reader where
  | waiting (opened : List Opened)
  | holding (opened : List Opened) (φ : Ltl) (rest : List (BinaryOp × Ltl))

namespace Reader

def take (φ : Ltl) : List Opened → Reader
  | .unary op :: opened => take (.unary op φ) opened
  | .chain ψ rest op :: opened => holding opened ψ (rest ++ [(op, φ)])
  | opened => holding opened φ []

def step (G : Convention) : Reader → Symbol → Option Reader
  | waiting opened, .const v => some (take (.const v) opened)
  | waiting opened, .prop x => some (take (.prop x) opened)
  | waiting opened, .unary op => some (waiting (.unary op :: opened))
  | waiting opened, .lparen => some (waiting (.lparen :: opened))
  | holding opened φ rest, .binary op => some (waiting (.chain φ rest op :: opened))
  | holding (.lparen :: opened) φ rest, .rparen => some (take (G.group φ rest) opened)
  | _, _ => none

def run (G : Convention) (r : Reader) (ss : List Symbol) : Option Reader := ss.foldlM (step G) r

def extend (more : List (BinaryOp × Ltl)) : Reader → Reader
  | waiting opened => waiting opened
  | holding opened φ rest => holding opened φ (rest ++ more)

theorem exists_take (φ : Ltl) (opened : List Opened) :
    ∃ opened' ψ rest, take φ opened = holding opened' ψ rest := by
  fun_induction take φ opened with
  | case1 φ op opened ih => exact ih
  | case2 φ ψ rest op opened => exact ⟨_, _, _, rfl⟩
  | case3 φ opened => exact ⟨_, _, _, rfl⟩

theorem extend_take_nil (φ : Ltl) (opened : List Opened) :
    (take φ opened).extend [] = take φ opened := by
  obtain ⟨_, _, _, htake⟩ := exists_take φ opened
  rw [htake, extend, List.append_nil]

variable {G : Convention}

theorem run_cons {r r' : Reader} {s : Symbol} (h : step G r s = some r') (ss : List Symbol) :
    run G r (s :: ss) = run G r' ss := by
  rw [run, List.foldlM_cons, h]
  rfl

theorem run_append {r r' : Reader} {ss : List Symbol} (h : run G r ss = some r')
    (ts : List Symbol) : run G r (ss ++ ts) = run G r' ts := by
  rw [run, List.foldlM_append]
  rw [run] at h
  rw [h]
  rfl

end Reader

/-- A reader that waits for an operand takes a phrase from its start to its end. -/
theorem Derives.run_eq {G : Convention} {ss : List Symbol} {φ : Ltl} {rest : List (BinaryOp × Ltl)}
    (h : Derives G ss φ rest) (opened : List Opened) :
    Reader.run G (.waiting opened) ss = some ((Reader.take φ opened).extend rest) := by
  induction h generalizing opened with
  | const v =>
    rw [Reader.run_cons rfl, Reader.extend_take_nil]
    rfl
  | prop x =>
    rw [Reader.run_cons rfl, Reader.extend_take_nil]
    rfl
  | unary op _ ih =>
    rw [Reader.run_cons rfl, ih]
    rfl
  | parens _ ih =>
    rw [List.cons_append, Reader.run_cons rfl, Reader.run_append (ih (.lparen :: opened)),
      Reader.run_cons rfl, Reader.extend_take_nil]
    rfl
  | @chain _ _ φ ψ rest op _ _ ih₁ ih₂ =>
    obtain ⟨opened', φ', rest', htake⟩ := Reader.exists_take φ opened
    rw [Reader.run_append (ih₁ opened), htake, Reader.run_cons rfl, ih₂]
    simp [Reader.take, Reader.extend]

/-- Symbols are a phrase in one way only. -/
theorem Derives.unique {G : Convention} {ss : List Symbol} {φ φ' : Ltl}
    {rest rest' : List (BinaryOp × Ltl)} (h : Derives G ss φ rest) (h' : Derives G ss φ' rest') :
    φ = φ' ∧ rest = rest' := by
  have heq := (h.run_eq []).symm.trans (h'.run_eq [])
  simpa [Reader.take, Reader.extend] using heq

theorem Reads.unique {G : Convention} {text : String} {χ χ' : Ltl} (h : Reads G text χ)
    (h' : Reads G text χ') : χ = χ' := by
  obtain ⟨ss, φ, rest, hscan, hderives, rfl⟩ := h
  obtain ⟨ss', φ', rest', hscan', hderives', rfl⟩ := h'
  obtain rfl : ss = ss' := Option.some.inj (hscan.symm.trans hscan')
  obtain ⟨rfl, rfl⟩ := hderives.unique hderives'
  rfl

end Ltl
end SymbolicLtl
