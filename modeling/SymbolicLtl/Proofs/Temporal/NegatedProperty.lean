import Mathlib.Order.Filter.Cofinite
import SymbolicLtl.Proofs.Temporal.Grammar
import SymbolicLtl.Translator.Basic

/-!
The negation of a property under assumptions is one formula of temporal logic, whatever the
convention on chains. It is true of the words that keep the constraints, are fair and refute the
property.
-/
namespace SymbolicLtl

namespace Ltl

def Phrase (G : Convention) (text : String) (φ : Ltl) (rest : List (BinaryOp × Ltl)) : Prop :=
  ∃ ss, scan text.toList = some ss ∧ Derives G ss φ rest

theorem reads_iff {G : Convention} {text : String} {χ : Ltl} :
    Reads G text χ ↔ ∃ φ rest, Phrase G text φ rest ∧ G.group φ rest = χ := by
  constructor
  · rintro ⟨ss, φ, rest, hscan, hderives, hχ⟩
    exact ⟨φ, rest, ⟨ss, hscan, hderives⟩, hχ⟩
  · rintro ⟨φ, rest, ⟨ss, hscan, hderives⟩, hχ⟩
    exact ⟨ss, φ, rest, hscan, hderives, hχ⟩

/-- Texts of one symbol that end with it or with a blank, so that a word may follow. -/
def signs : List (String × Symbol) :=
  [("(", .lparen), (")", .rparen), ("!", .unary .not), ("X ", .unary .next),
    ("[] ", .unary .always), ("[]", .unary .always), ("<> ", .unary .eventually),
    (" && ", .binary .and), (" || ", .binary .or), (" -> ", .binary .imp), (" <-> ", .binary .iff)]

theorem scan_of_mem_signs : ∀ x ∈ signs, scan x.1.toList = some [x.2] := by
  decide +kernel

theorem not_isNameChar_of_mem_signs :
    ∀ x ∈ signs, x.1.toList.getLast?.all (fun c => !Token.isNameChar c) = true := by
  decide +kernel

/-- No sign but that of the next position goes on with a word. -/
theorem delimited_of_mem_signs : ∀ x ∈ signs, x.2 ≠ .unary .next →
    x.1.toList.head?.any (fun c => !Token.isNameChar c) = true := by
  decide +kernel

variable {G : Convention} {text text' : String} {φ ψ : Ltl} {rest : List (BinaryOp × Ltl)}

theorem scan_sign_append {sign : String} {s : Symbol} {ss : List Symbol} (hsign : (sign, s) ∈ signs)
    (h : scan text.toList = some ss) : scan (sign ++ text).toList = some (s :: ss) := by
  have hlast := not_isNameChar_of_mem_signs _ hsign
  have hapart : Apart sign.toList text.toList := by
    intro c hc hname
    rw [show sign.toList.getLast? = some c from hc] at hlast
    simp [hname] at hlast
  rw [String.toList_append]
  exact scan_append (scan_of_mem_signs _ hsign) h hapart

theorem scan_append_sign {sign : String} {s : Symbol} {ss ts : List Symbol}
    (hsign : (sign, s) ∈ signs) (hs : s ≠ .unary .next) (h : scan text.toList = some ss)
    (h' : scan text'.toList = some ts) :
    scan (text ++ sign ++ text').toList = some (ss ++ s :: ts) := by
  have hfirst := delimited_of_mem_signs _ hsign hs
  have hapart : Apart text.toList (sign ++ text').toList := by
    intro _ _ _ d hd
    cases hchars : sign.toList with
    | nil => simp [hchars] at hfirst
    | cons c cs =>
      rw [String.toList_append, hchars] at hd
      rw [hchars] at hfirst
      obtain rfl : c = d := Option.some.inj hd
      simpa using hfirst
  rw [String.append_assoc, String.toList_append]
  exact scan_append h (scan_sign_append hsign h') hapart

namespace Phrase

theorem unary {sign : String} {op : UnaryOp} (hsign : (sign, .unary op) ∈ signs)
    (h : Phrase G text φ []) : Phrase G (sign ++ text) (.unary op φ) [] := by
  obtain ⟨ss, hscan, hderives⟩ := h
  exact ⟨_, scan_sign_append hsign hscan, hderives.unary op⟩

theorem parens (h : Phrase G text φ rest) : Phrase G ("(" ++ text ++ ")") (G.group φ rest) [] := by
  obtain ⟨ss, hscan, hderives⟩ := h
  have hright : scan (text ++ ")" ++ "").toList = some (ss ++ [.rparen]) :=
    scan_append_sign (by decide) (by decide) hscan scan_nil
  rw [String.append_empty] at hright
  rw [String.append_assoc]
  exact ⟨_, scan_sign_append (by decide) hright, hderives.parens⟩

theorem chain {sign : String} {op : BinaryOp} (hsign : (sign, .binary op) ∈ signs)
    (h : Phrase G text φ []) (h' : Phrase G text' ψ rest) :
    Phrase G (text ++ sign ++ text') φ ((op, ψ) :: rest) := by
  obtain ⟨ss, hscan, hderives⟩ := h
  obtain ⟨ts, hscan', hderives'⟩ := h'
  exact ⟨_, scan_append_sign hsign (by simp) hscan hscan', hderives.chain op hderives'⟩

/-- Two operands in parentheses, which no convention can part. -/
theorem binary {sign : String} {op : BinaryOp} (hsign : (sign, .binary op) ∈ signs)
    (h : Phrase G text φ []) (h' : Phrase G text' ψ []) :
    Phrase G ("(" ++ text ++ sign ++ text' ++ ")") (.binary op φ ψ) [] := by
  have hparens := (h.chain hsign h').parens
  rw [Convention.group_singleton] at hparens
  simpa only [String.append_assoc] using hparens

theorem conjunction {first : String × Ltl} {more : List (String × Ltl)}
    (h : ∀ x ∈ first :: more, Phrase G x.1 x.2 []) :
    Phrase G (" && ".intercalate ((first :: more).map Prod.fst)) first.2
      ((more.map Prod.snd).map (.and, ·)) := by
  induction more generalizing first with
  | nil => simpa using h first
  | cons second more ih =>
    rw [List.forall_mem_cons] at h
    have htail := ih h.2
    rw [List.map_cons, List.map_cons, String.intercalate_cons_cons]
    exact h.1.chain (by decide) htail

end Phrase
end Ltl

namespace Formula

open Ltl (Convention)

/-- A formula over current and next values, in temporal logic. -/
def toLtl : Formula → Ltl
  | .const v => .const v
  | .ident x => .prop x
  | .next x => .unary .next (.prop x)
  | .not a => .unary .not a.toLtl
  | .binary .and a b => .binary .and a.toLtl b.toLtl
  | .binary .or a b => .binary .or a.toLtl b.toLtl
  | .binary .xor a b => .unary .not (.binary .iff a.toLtl b.toLtl)
  | .binary .imp a b => .binary .imp a.toLtl b.toLtl
  | .binary .iff a b => .binary .iff a.toLtl b.toLtl

theorem holds_toLtl (f : Formula) (w : Nat → String → Bool) (i : Nat) :
    f.toLtl.Holds w i ↔ f.eval (w i) (w (i + 1)) = true := by
  induction f with
  | const v => rfl
  | ident x => rfl
  | next x => rfl
  | not a ih =>
    show ¬ a.toLtl.Holds w i ↔ _
    simp [ih, eval]
  | binary op a b iha ihb =>
    cases op with
    | and =>
      show a.toLtl.Holds w i ∧ b.toLtl.Holds w i ↔ _
      simp [iha, ihb, eval, Connective.eval]
    | or =>
      show a.toLtl.Holds w i ∨ b.toLtl.Holds w i ↔ _
      simp [iha, ihb, eval, Connective.eval]
    | xor =>
      show ¬ (a.toLtl.Holds w i ↔ b.toLtl.Holds w i) ↔ _
      rw [iha, ihb, ← Bool.eq_iff_iff]
      simp [eval, Connective.eval]
    | imp =>
      show (a.toLtl.Holds w i → b.toLtl.Holds w i) ↔ _
      rw [iha, ihb]
      cases ha : a.eval (w i) (w (i + 1)) <;> simp [eval, Connective.eval, ha]
    | iff =>
      show (a.toLtl.Holds w i ↔ b.toLtl.Holds w i) ↔ _
      rw [iha, ihb, ← Bool.eq_iff_iff]
      simp [eval, Connective.eval]

/-- The written form in temporal logic is an operand. -/
theorem phrase_renderLtl (G : Convention) (f : Formula)
    (hnames : ∀ x ∈ f.names, Ltl.scan x.toList = some [.prop x]) :
    Ltl.Phrase G f.renderLtl f.toLtl [] := by
  induction f with
  | const v =>
    refine ⟨[.const v], ?_, .const v⟩
    cases v <;> decide +kernel
  | ident x => exact ⟨[.prop x], hnames x (by simp [names]), .prop x⟩
  | next x =>
    have hx : Ltl.Phrase G x (.prop x) [] := ⟨[.prop x], hnames x (by simp [names]), .prop x⟩
    have hparens := (hx.unary (by decide : ("X ", .unary .next) ∈ Ltl.signs)).parens
    rw [Convention.group_nil] at hparens
    rwa [← String.append_assoc] at hparens
  | not a ih => exact (ih hnames).unary (by decide)
  | binary op a b iha ihb =>
    simp only [names, List.forall_mem_append] at hnames
    have ha := iha hnames.1
    have hb := ihb hnames.2
    cases op with
    | and => exact ha.binary (by decide) hb
    | or => exact ha.binary (by decide) hb
    | imp => exact ha.binary (by decide) hb
    | iff => exact ha.binary (by decide) hb
    | xor =>
      have hiff := ha.binary (by decide : (" <-> ", .binary .iff) ∈ Ltl.signs) hb
      have hnot := hiff.unary (by decide : ("!", .unary .not) ∈ Ltl.signs)
      simp only [← String.append_assoc] at hnot
      exact hnot

end Formula

namespace Ltl

variable {G : Convention}

/-- The assumptions with what they say: a constraint holds always, a fairness condition always
eventually. -/
def assumptions (fairness trans : List Formula) : List (String × Ltl) :=
  trans.map (fun f => ("([] " ++ f.renderLtl ++ ")", .unary .always f.toLtl)) ++
    fairness.map fun f =>
      ("([]<> " ++ f.renderLtl ++ ")", .unary .always (.unary .eventually f.toLtl))

theorem phrase_of_mem_assumptions {fairness trans : List Formula}
    (hnames : ∀ f ∈ trans ++ fairness, ∀ x ∈ f.names, scan x.toList = some [.prop x])
    {x : String × Ltl} (hx : x ∈ assumptions fairness trans) : Phrase G x.1 x.2 [] := by
  rw [List.forall_mem_append] at hnames
  unfold assumptions at hx
  rw [List.mem_append, List.mem_map, List.mem_map] at hx
  rcases hx with ⟨f, hf, rfl⟩ | ⟨f, hf, rfl⟩
  · have hrender := f.phrase_renderLtl G (hnames.1 f hf)
    have hparens := (hrender.unary (by decide : ("[] ", .unary .always) ∈ signs)).parens
    rw [G.group_nil, ← String.append_assoc] at hparens
    exact hparens
  · have hrender := f.phrase_renderLtl G (hnames.2 f hf)
    have heventually := hrender.unary (by decide : ("<> ", .unary .eventually) ∈ signs)
    have hparens := (heventually.unary (by decide : ("[]", .unary .always) ∈ signs)).parens
    rw [G.group_nil, ← String.append_assoc, ← String.append_assoc] at hparens
    exact hparens

theorem holds_assumptions (fairness trans : List Formula) (w : Nat → String → Bool) :
    (∀ x ∈ assumptions fairness trans, x.2.Holds w 0) ↔
      (∀ f ∈ trans, ∀ i, f.eval (w i) (w (i + 1)) = true) ∧
        ∀ f ∈ fairness, {i | f.eval (w i) (w (i + 1)) = true}.Infinite := by
  unfold assumptions
  rw [List.forall_mem_append, List.forall_mem_map, List.forall_mem_map]
  simp only [Holds, UnaryOp.Holds, Formula.holds_toLtl, Nat.zero_le, true_imp_iff,
    ← Nat.frequently_atTop_iff_infinite, Filter.frequently_atTop]

theorem phrase_denied {text : String} {φ : Ltl} {rest : List (BinaryOp × Ltl)}
    (h : Phrase G text φ rest) :
    Phrase G ("!(" ++ text ++ ")") (.unary .not (G.group φ rest)) [] := by
  have hnot := h.parens.unary (by decide : ("!", .unary .not) ∈ signs)
  simp only [← String.append_assoc] at hnot
  exact hnot

theorem phrase_denied_under {text text' : String} {φ ψ : Ltl} {rest rest' : List (BinaryOp × Ltl)}
    (h : Phrase G text φ rest) (h' : Phrase G text' ψ rest') :
    Phrase G ("!((" ++ text ++ ") -> (" ++ text' ++ "))")
      (.unary .not (.binary .imp (G.group φ rest) (G.group ψ rest'))) [] := by
  have himp := h.parens.binary (by decide : (" -> ", .binary .imp) ∈ signs) h'.parens
  have hnot := himp.unary (by decide : ("!", .unary .not) ∈ signs)
  rw [show "!((" = "!" ++ "(" ++ "(" from rfl, show ") -> (" = ")" ++ " -> " ++ "(" from rfl,
    show "))" = ")" ++ ")" from rfl]
  simpa only [String.append_assoc] using hnot

theorem negatedSpec_eq (spec : String) (fairness trans : List Formula) :
    negatedSpec spec fairness trans =
      if (assumptions fairness trans).isEmpty then "!(" ++ spec ++ ")"
      else "!((" ++ " && ".intercalate ((assumptions fairness trans).map Prod.fst) ++ ") -> (" ++
        spec ++ "))" := by
  simp [negatedSpec, assumptions, Function.comp_def]

/-- The text denies that the assumptions imply the property. -/
theorem exists_phrase_negatedSpec {spec : String} {φ : Ltl} {fairness trans : List Formula}
    (hspec : Reads G spec φ)
    (hnames : ∀ f ∈ trans ++ fairness, ∀ x ∈ f.names, scan x.toList = some [.prop x]) :
    ∃ ψ, Phrase G (negatedSpec spec fairness trans) ψ [] ∧ ∀ w : Nat → String → Bool,
      ψ.Holds w 0 ↔ (∀ x ∈ assumptions fairness trans, x.2.Holds w 0) ∧ ¬ φ.Holds w 0 := by
  obtain ⟨φ, rest, hphrase, rfl⟩ := reads_iff.mp hspec
  have hall : ∀ x ∈ assumptions fairness trans, Phrase G x.1 x.2 [] :=
    fun x hx => phrase_of_mem_assumptions hnames hx
  rw [negatedSpec_eq]
  cases hlist : assumptions fairness trans with
  | nil =>
    refine ⟨_, phrase_denied hphrase, fun w => ?_⟩
    show ¬ (G.group φ rest).Holds w 0 ↔ _
    simp
  | cons first more =>
    rw [hlist] at hall
    refine ⟨_, phrase_denied_under (Phrase.conjunction hall) hphrase, fun w => ?_⟩
    show ¬ ((G.group first.2 _).Holds w 0 → (G.group φ rest).Holds w 0) ↔ _
    rw [G.holds_group_and, Classical.not_imp, List.forall_mem_cons, List.forall_mem_map,
      List.forall_mem_cons]

/-- The negated property is one formula, whatever the convention. It is true of a word when every
constraint holds at every position, every fairness condition at infinitely many, and the property
does not. -/
theorem negatedSpec_exact (G : Convention) {spec : String} {φ : Ltl} {fairness trans : List Formula}
    (hspec : Reads G spec φ)
    (hnames : ∀ f ∈ trans ++ fairness, ∀ x ∈ f.names, scan x.toList = some [.prop x]) :
    ∃ ψ, (∀ χ, Reads G (negatedSpec spec fairness trans) χ ↔ χ = ψ) ∧
      ∀ w : Nat → String → Bool, ψ.Holds w 0 ↔
        (∀ f ∈ trans, ∀ i, f.eval (w i) (w (i + 1)) = true) ∧
        (∀ f ∈ fairness, {i | f.eval (w i) (w (i + 1)) = true}.Infinite) ∧ ¬ φ.Holds w 0 := by
  obtain ⟨ψ, hphrase, hholds⟩ := exists_phrase_negatedSpec hspec hnames
  have hreads : Reads G (negatedSpec spec fairness trans) ψ :=
    reads_iff.mpr ⟨ψ, [], hphrase, G.group_nil ψ⟩
  refine ⟨ψ, fun χ => ⟨fun h => h.unique hreads, fun h => h ▸ hreads⟩, fun w => ?_⟩
  rw [hholds, holds_assumptions, and_assoc]

/-- Every request is answered, and the line is held until it is closed. -/
def handshake : Ltl :=
  .binary .and
    (.unary .always (.binary .imp (.prop "req") (.unary .eventually (.prop "ack"))))
    (.binary .strongUntil (.prop "hold") (.prop "closed"))

theorem negatedSpec_handshake :
    Reads .usual "[] (req -> <> ack) && hold U closed" handshake ∧
      ∃ ψ, (∀ χ, Reads .usual (negatedSpec "[] (req -> <> ack) && hold U closed"
          [.binary .xor (.ident "req") (.ident "ack")]
          [.binary .iff (.next "clock") (.not (.ident "clock"))]) χ ↔ χ = ψ) ∧
        ∀ w : Nat → String → Bool, ψ.Holds w 0 ↔
          (∀ i, w (i + 1) "clock" = !w i "clock") ∧ {i | w i "req" ≠ w i "ack"}.Infinite ∧
            ¬ handshake.Holds w 0 := by
  have himp := Derives.chain (G := .usual) .imp (.prop "req") (.unary .eventually (.prop "ack"))
  have huntil := Derives.chain (G := .usual) .strongUntil (.prop "hold") (.prop "closed")
  have hreads : Reads .usual "[] (req -> <> ack) && hold U closed" handshake :=
    ⟨_, _, _, by decide +kernel, .chain .and (.unary .always himp.parens) huntil, rfl⟩
  have hnames : ∀ f ∈ [Formula.binary .iff (.next "clock") (.not (.ident "clock"))] ++
      [.binary .xor (.ident "req") (.ident "ack")],
      ∀ x ∈ f.names, scan x.toList = some [.prop x] := by
    decide +kernel
  obtain ⟨ψ, hψ, hholds⟩ := negatedSpec_exact .usual hreads hnames
  refine ⟨hreads, ψ, hψ, fun w => ?_⟩
  rw [hholds]
  simp [Formula.eval, Connective.eval]

end Ltl
end SymbolicLtl
