import SymbolicLtl.Formula.Sketch
import SymbolicLtl.Proofs.Formula.Grammar

/-!
The written form of a formula is read back as the same formula. A text is taken apart from its front:
what is read there is a phrase, whatever the tokens behind it are.
-/
namespace SymbolicLtl

namespace Formula

open Token (Begins Front Delimited)

/-- What may stand behind a phrase: no name goes on there, and no parenthesis opens. -/
structure Follows (P : List Token → Prop) (rest : List Char) : Prop where
  begins : Begins P rest
  delimited : Delimited rest
  apart : ∀ tokens, P tokens → (peek tokens).kind ≠ .lparen

theorem follows_nil : Follows (fun tokens => ∃ pos, tokens = [⟨.finish, "", pos⟩]) [] where
  begins := Token.begins_nil
  delimited := by simp [Delimited]
  apart := by
    rintro tokens ⟨pos, rfl⟩
    simp [peek]

theorem follows_rparen {P : List Token → Prop} {rest : List Char} (h : Begins P rest) :
    Follows (Front .rparen ")" P) (')' :: rest) where
  begins := h.rparen
  delimited := Token.delimited_cons (by simp) rest
  apart := by
    rintro tokens ⟨pos, more, rfl, -⟩
    simp [peek]

theorem follows_sign {P : List Token → Prop} {rest : List Char} (op : Connective)
    (h : Begins P rest) :
    Follows (Front (.connective op) op.sign P) (' ' :: (op.sign.toList ++ ' ' :: rest)) where
  begins := (h.sign op).blank
  delimited := Token.delimited_cons (by simp) _
  apart := by
    rintro tokens ⟨pos, more, rfl, -⟩
    simp [peek]

/-- The text is a phrase of the formula, whatever follows it. -/
def Yields (n : Phrase) (f : Formula) (cs : List Char) : Prop :=
  ∀ (P : List Token → Prop) (rest : List Char), Follows P rest →
    Begins (fun tokens => ∃ more, Derives n f tokens more ∧ P more) (cs ++ rest)

theorem yields_word {c : Char} {cs : List Char} {v : Bool} (hstart : Token.isNameStart c = true)
    (hcs : ∀ d ∈ cs, Token.isNameChar d = true)
    (hkind : Token.wordKind (String.ofList (c :: cs)) = .truth v) :
    Yields .unary (.const v) (c :: cs) := by
  intro P rest h
  have hword := h.begins.word hstart hcs h.delimited
  rw [hkind] at hword
  apply hword.mono
  rintro tokens ⟨pos, more, rfl, hmore⟩
  exact ⟨more, .atom .truth, hmore⟩

theorem yields_const (v : Bool) : Yields .unary (.const v) (render (.const v)).toList := by
  cases v with
  | true =>
    have hstart : Token.isNameStart 'T' = true := by decide +kernel
    have hchars : ['R', 'U', 'E'].all Token.isNameChar = true := by decide +kernel
    exact yields_word hstart (List.all_eq_true.mp hchars) rfl
  | false =>
    have hstart : Token.isNameStart 'F' = true := by decide +kernel
    have hchars : ['A', 'L', 'S', 'E'].all Token.isNameChar = true := by decide +kernel
    exact yields_word hstart (List.all_eq_true.mp hchars) rfl

theorem yields_ident {x : String} (hx : Token.isIdentifier x = true) :
    Yields .unary (.ident x) x.toList := by
  intro P rest h
  apply (h.begins.identifier hx h.delimited).mono
  rintro tokens ⟨pos, more, rfl, hmore⟩
  exact ⟨more, .atom (.ident fun _ => h.apart more hmore), hmore⟩

theorem yields_next {x : String} (hx : Token.isIdentifier x = true) :
    Yields .unary (.next x) (render (.next x)).toList := by
  intro P rest h
  have hnext : Token.isIdentifier "next" = true := by decide +kernel
  have hname := h.begins.rparen.identifier hx (Token.delimited_cons (by simp) rest)
  have hword := hname.lparen.identifier hnext (Token.delimited_cons (by simp) _)
  have htext : (render (.next x)).toList ++ rest =
      "next".toList ++ '(' :: (x.toList ++ ')' :: rest) := by
    simp [render]
  rw [htext]
  apply hword.mono
  rintro tokens ⟨p, _, rfl, q, _, rfl, r, _, rfl, s, more, rfl, hmore⟩
  exact ⟨more, .atom .next, hmore⟩

namespace Yields

variable {f a b : Formula} {cs ds : List Char}

theorem mono {m n : Phrase} (h : Yields m f cs)
    (himp : ∀ tokens rest, Derives m f tokens rest → Derives n f tokens rest) : Yields n f cs := by
  intro P rest hrest
  apply (h P rest hrest).mono
  rintro tokens ⟨more, hderives, hmore⟩
  exact ⟨more, himp tokens more hderives, hmore⟩

theorem not (h : Yields .unary f cs) : Yields .unary (.not f) ('!' :: cs) := by
  intro P rest hrest
  apply (h P rest hrest).bang.mono
  rintro tokens ⟨pos, _, rfl, more, hderives, hmore⟩
  exact ⟨more, .not hderives, hmore⟩

theorem parens (h : Yields (.chain .iff) f cs) : Yields .unary f ('(' :: (cs ++ [')'])) := by
  intro P rest hrest
  have hinner := (h _ _ (follows_rparen hrest.begins)).lparen
  rw [List.cons_append, List.append_assoc]
  apply hinner.mono
  rintro tokens ⟨p, _, rfl, _, hderives, q, more, rfl, hmore⟩
  exact ⟨more, .atom (.parens hderives), hmore⟩

end Yields

theorem Derives.of_unary {n : Phrase} {f : Formula} {tokens rest : List Token}
    (h : Derives .unary f tokens rest) (hn : n ≠ .primary) : Derives n f tokens rest := by
  have hand : Derives (.chain .and) f tokens rest := .single h
  have hxor : Derives (.chain .xor) f tokens rest := .single hand
  have hor : Derives (.chain .or) f tokens rest := .single hxor
  have himp : Derives (.chain .imp) f tokens rest := .single hor
  cases n with
  | primary => exact absurd rfl hn
  | unary => exact h
  | chain op =>
    cases op with
    | and => exact hand
    | xor => exact hxor
    | or => exact hor
    | imp => exact himp
    | iff => exact .single himp

/-- Every chain is a formula. -/
theorem Derives.of_chain {op : Connective} {f : Formula} {tokens rest : List Token}
    (h : Derives (.chain op) f tokens rest) : Derives (.chain .iff) f tokens rest := by
  cases op with
  | and => exact .single (.single (.single (.single h)))
  | xor => exact .single (.single (.single h))
  | or => exact .single (.single h)
  | imp => exact .single h
  | iff => exact h

theorem Derives.join {op : Connective} {a b : Formula} {t : String} {p : Nat}
    {tokens middle rest : List Token}
    (ha : Derives .unary a tokens (⟨.connective op, t, p⟩ :: middle))
    (hb : Derives .unary b middle rest) : Derives (.chain op) (.binary op a b) tokens rest := by
  by_cases hop : op = .imp
  · subst hop
    exact .right (ha.of_unary (Phrase.operandOf_ne_primary .imp)) (hb.of_unary (by simp))
  · exact .left hop (ha.of_unary (by simp)) (hb.of_unary (Phrase.operandOf_ne_primary op))

theorem Yields.joined {l m n : Phrase} {a b : Formula} {cs ds : List Char} {op : Connective}
    (ha : Yields m a cs) (hb : Yields n b ds)
    (hjoin : ∀ {t p tokens middle rest}, Derives m a tokens (⟨.connective op, t, p⟩ :: middle) →
      Derives n b middle rest → Derives l (.binary op a b) tokens rest) :
    Yields l (.binary op a b) (cs ++ ' ' :: (op.sign.toList ++ ' ' :: ds)) := by
  intro P rest hrest
  have hleft := ha _ _ (follows_sign op (hb P rest hrest))
  have htext : cs ++ ' ' :: (op.sign.toList ++ ' ' :: ds) ++ rest =
      cs ++ ' ' :: (op.sign.toList ++ ' ' :: (ds ++ rest)) := by
    simp
  rw [htext]
  apply hleft.mono
  rintro tokens ⟨_, hderives, p, middle, rfl, more, hright, hmore⟩
  exact ⟨more, hjoin hderives hright, hmore⟩

theorem Yields.binary {a b : Formula} {cs ds : List Char} (op : Connective)
    (ha : Yields .unary a cs) (hb : Yields .unary b ds) :
    Yields (.chain op) (.binary op a b) (cs ++ ' ' :: (op.sign.toList ++ ' ' :: ds)) :=
  ha.joined hb Derives.join

def phrase : Formula → Phrase
  | .binary op _ _ => .chain op
  | _ => .unary

theorem Derives.of_phrase {f : Formula} {tokens rest : List Token}
    (h : Derives f.phrase f tokens rest) : Derives (.chain .iff) f tokens rest := by
  cases f with
  | binary op a b => exact Derives.of_chain h
  | _ => exact Derives.of_unary h (by simp)

/-- In parentheses where it needs them, a formula is an operand. -/
theorem Yields.operand {f : Formula} (h : Yields f.phrase f f.render.toList) :
    Yields .unary f (parenthesize f.isBinary f.render).toList := by
  cases f with
  | binary op a b =>
    have hinner := (h.mono fun _ _ => Derives.of_phrase).parens
    simpa [isBinary, parenthesize] using hinner
  | _ => exact h

theorem yields_render (f : Formula) (hf : ∀ x ∈ f.names, Token.isIdentifier x = true) :
    Yields f.phrase f f.render.toList := by
  induction f with
  | const v => exact yields_const v
  | ident x => exact yields_ident (hf x (by simp [names]))
  | next x => exact yields_next (hf x (by simp [names]))
  | not a ih =>
    have hnot := (ih hf).operand.not
    simpa [render, phrase] using hnot
  | binary op a b iha ihb =>
    have ha := iha fun x hx => hf x (List.mem_append_left _ hx)
    have hb := ihb fun x hx => hf x (List.mem_append_right _ hx)
    have hbinary := Yields.binary op ha.operand hb.operand
    simpa [render, phrase] using hbinary

theorem parse_of_yields {n : Phrase} {f : Formula} {text : String} (h : Yields n f text.toList)
    (hn : ∀ tokens rest, Derives n f tokens rest → Derives (.chain .iff) f tokens rest) :
    parse text = .ok f := by
  obtain ⟨tokens, hscan, rest, hderives, pos, rfl⟩ := h _ _ follows_nil 0
  rw [List.append_nil] at hscan
  have hgenerates : Generates tokens f := ⟨_, rfl, hn _ _ hderives⟩
  exact parse_eq_ok_iff.mpr ⟨tokens, hscan, (parseTokens_scan hscan).mpr hgenerates⟩

/-- A formula over identifiers is read back from its written form. -/
theorem parse_render {f : Formula} (hf : ∀ x ∈ f.names, Token.isIdentifier x = true) :
    parse f.render = .ok f :=
  parse_of_yields (yields_render f hf) fun _ _ => Derives.of_phrase

theorem Derives.exists_name {n : Phrase} {f : Formula} {tokens rest : List Token}
    (h : Derives n f tokens rest) {x : String} (hx : x ∈ f.names) :
    ∃ t ∈ tokens, t.kind = .name ∧ t.text = x := by
  induction h with
  | truth => cases hx
  | @next y t u p q r s rest =>
    obtain rfl : x = y := List.mem_singleton.mp hx
    exact ⟨⟨.name, x, r⟩, by simp, rfl, rfl⟩
  | @ident y p rest _ =>
    obtain rfl : x = y := List.mem_singleton.mp hx
    exact ⟨⟨.name, x, p⟩, by simp, rfl, rfl⟩
  | parens _ ih | not _ ih =>
    obtain ⟨t, ht, hname⟩ := ih hx
    exact ⟨t, List.mem_cons_of_mem _ ht, hname⟩
  | atom _ ih | single _ ih => exact ih hx
  | left _ hleft _ iha ihb | right hleft _ iha ihb =>
    rcases List.mem_append.mp hx with hx | hx
    · exact iha hx
    · obtain ⟨t, ht, hname⟩ := ihb hx
      obtain ⟨phrase, rfl, -⟩ := hleft.exists_phrase
      exact ⟨t, by simp [ht], hname⟩

/-- Only identifiers are read as names. -/
theorem isIdentifier_of_parse {input : String} {f : Formula} (h : parse input = .ok f) :
    ∀ x ∈ f.names, Token.isIdentifier x = true := by
  intro x hx
  obtain ⟨tokens, hscan, htokens⟩ := parse_eq_ok_iff.mp h
  obtain ⟨last, -, hderives⟩ := (parseTokens_scan hscan).mp htokens
  obtain ⟨t, ht, hkind, rfl⟩ := hderives.exists_name hx
  obtain ⟨body, last', rfl, hlast, hbody⟩ := Token.exists_lexemes hscan
  rcases List.mem_append.mp ht with ht | ht
  · obtain ⟨c, rest, more, hlexeme, htext⟩ := hbody t ht
    rw [hkind] at hlexeme
    rw [htext]
    exact Token.isIdentifier_of_lexeme hlexeme
  · obtain rfl : t = last' := List.mem_singleton.mp ht
    rw [hlast] at hkind
    cases hkind

theorem isCompound_toSketch (f : Formula) : f.toSketch.isCompound = f.isBinary := by
  cases f <;> rfl

/-- The written form of a formula is that of its tree. -/
theorem render_toSketch (f : Formula) : f.toSketch.render = .ok f.render := by
  induction f with
  | const v => cases v <;> rfl
  | ident x => rfl
  | next x => rfl
  | not a ih =>
    rw [toSketch, Sketch.render, ih, isCompound_toSketch]
    rfl
  | binary op a b iha ihb =>
    have hjoin : ∀ x y : String, (Sketch.separator (.connective op)).intercalate [x, y] =
        x ++ " " ++ op.sign ++ " " ++ y := by
      intro x y
      change x ++ (" " ++ op.sign ++ " ") ++ y = _
      simp only [String.append_assoc]
    rw [toSketch, Sketch.render, Sketch.renderAll, Sketch.renderAll, Sketch.renderAll, iha, ihb,
      isCompound_toSketch, isCompound_toSketch, render]
    · simp only [← hjoin]
      rfl
    · simp
    · intro _ _ hop
      cases hop

theorem toSketch_injective : Function.Injective toSketch := by
  intro f g h
  induction f generalizing g with
  | const v | ident x | next x =>
    cases g <;> cases h
    rfl
  | not a ih =>
    cases g <;> simp only [toSketch, reduceCtorEq, Sketch.node.injEq, List.cons.injEq, and_true,
      true_and, false_and] at h
    rw [ih h]
  | binary op a b iha ihb =>
    cases g <;> simp only [toSketch, reduceCtorEq, Sketch.node.injEq, List.cons.injEq, and_true,
      Operator.connective.injEq, false_and] at h
    obtain ⟨rfl, ha, hb⟩ := h
    rw [iha ha, ihb hb]

end Formula

namespace Sketch

/-- Every operator is known and has its operands, and the names are identifiers. -/
inductive WellFormed : Sketch → Prop
  | const (v : Bool) : WellFormed (.const v)
  | ident {x : String} : Token.isIdentifier x = true → WellFormed (.ident x)
  | next {x : String} : Token.isIdentifier x = true → WellFormed (.next x)
  | not {a : Sketch} : WellFormed a → WellFormed (.node .not [a])
  | binary {a b : Sketch} (op : Connective) :
    WellFormed a → WellFormed b → WellFormed (.node (.connective op) [a, b])

/-- The well-formed trees are the formulas over identifiers. -/
theorem WellFormed.exists_formula {s : Sketch} (h : s.WellFormed) :
    ∃ f : Formula, f.toSketch = s ∧ ∀ x ∈ f.names, Token.isIdentifier x = true := by
  induction h with
  | const v => exact ⟨.const v, rfl, by simp [Formula.names]⟩
  | @ident x hx => exact ⟨.ident x, rfl, by simp [Formula.names, hx]⟩
  | @next x hx => exact ⟨.next x, rfl, by simp [Formula.names, hx]⟩
  | not _ ih =>
    obtain ⟨f, rfl, hf⟩ := ih
    exact ⟨.not f, rfl, hf⟩
  | binary op _ _ iha ihb =>
    obtain ⟨f, rfl, hf⟩ := iha
    obtain ⟨g, rfl, hg⟩ := ihb
    refine ⟨.binary op f g, rfl, ?_⟩
    intro x hx
    rcases List.mem_append.mp hx with hx | hx
    · exact hf x hx
    · exact hg x hx

theorem wellFormed_toSketch {f : Formula} (hf : ∀ x ∈ f.names, Token.isIdentifier x = true) :
    f.toSketch.WellFormed := by
  induction f with
  | const v => exact .const v
  | ident x => exact .ident (hf x (by simp [Formula.names]))
  | next x => exact .next (hf x (by simp [Formula.names]))
  | not a ih => exact .not (ih hf)
  | binary op a b iha ihb =>
    have ha := iha fun x hx => hf x (List.mem_append_left _ hx)
    have hb := ihb fun x hx => hf x (List.mem_append_right _ hx)
    exact .binary op ha hb

/-- A well-formed tree is read back from its written form, and every formula that is read has such a
tree. -/
theorem render_round_trip :
    (∀ s : Sketch, s.WellFormed →
      ∃ text f, s.render = .ok text ∧ Formula.parse text = .ok f ∧ f.toSketch = s) ∧
    ∀ input f, Formula.parse input = .ok f →
      f.toSketch.WellFormed ∧ f.toSketch.render = .ok f.render ∧ Formula.parse f.render = .ok f := by
  constructor
  · intro s hs
    obtain ⟨f, rfl, hf⟩ := hs.exists_formula
    exact ⟨f.render, f, f.render_toSketch, Formula.parse_render hf, rfl⟩
  · intro input f h
    have hf := Formula.isIdentifier_of_parse h
    exact ⟨wellFormed_toSketch hf, f.render_toSketch, Formula.parse_render hf⟩

/-- A name `next` beside a next value, and an implication on the left of another. -/
theorem round_trip_implications :
    Formula.parse "(next -> next(x)) -> !(a.b | TRUE)" = .ok (.binary .imp
      (.binary .imp (.ident "next") (.next "x")) (.not (.binary .or (.ident "a.b") (.const true)))) ∧
    Formula.parse (Formula.ident "x").render = .ok (.ident "x") := by
  let f : Formula := .binary .imp (.binary .imp (.ident "next") (.next "x"))
    (.not (.binary .or (.ident "a.b") (.const true)))
  have hidentifier : ∀ x ∈ ["next", "x", "a.b"], Token.isIdentifier x = true := by decide +kernel
  have hformed : f.toSketch.WellFormed := wellFormed_toSketch hidentifier
  obtain ⟨text, g, htext, hg, heq⟩ := render_round_trip.1 f.toSketch hformed
  obtain rfl : g = f := Formula.toSketch_injective heq
  obtain rfl : text = "(next -> next(x)) -> !(a.b | TRUE)" :=
    Except.ok.inj (htext.symm.trans (Formula.render_toSketch _))
  have hletter : Formula.parse "x" = .ok (.ident "x") :=
    Formula.parse_render (f := .ident "x") (by decide +kernel)
  exact ⟨hg, (render_round_trip.2 "x" _ hletter).2.2⟩

end Sketch
end SymbolicLtl
