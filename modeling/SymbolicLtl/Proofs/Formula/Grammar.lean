import SymbolicLtl.Proofs.Formula.Scanning

/-!
The grammar of written formulas. Every connective `op` has a level, whose phrases are made of phrases
of the next tighter level:

    <->  iff     := imp ('<->' imp)*
    ->   imp     := or ('->' imp)?
    |    or      := xor ('|' xor)*
    ^    xor     := and ('^' and)*
    &    and     := unary ('&' unary)*
         unary   := '!' unary | primary
         primary := constant | 'next' '(' name ')' | name | '(' iff ')'

The reader accepts exactly the texts whose tokens the grammar generates, and there is only one formula
for them.
-/
namespace SymbolicLtl

namespace Formula

/-- A level of the grammar: operands joined by a connective, negations, and what binds tightest. -/
inductive Phrase where
  | chain (op : Connective)
  | unary
  | primary
deriving DecidableEq, Repr

namespace Phrase

def operandOf : Connective → Phrase
  | .iff => chain .imp
  | .imp => chain .or
  | .or => chain .xor
  | .xor => chain .and
  | .and => unary

def layer : Phrase → Nat
  | chain op => op.layer
  | unary | primary => 0

theorem layer_operandOf (op : Connective) : op.layer = (operandOf op).layer + 1 := by
  cases op <;> rfl

theorem layer_of_operandOf {op : Connective} {layer : Nat} (h : op.layer = layer + 1) :
    (operandOf op).layer = layer := by
  rw [layer_operandOf] at h
  exact Nat.succ.inj h

theorem operandOf_ne_primary (op : Connective) : operandOf op ≠ primary := by
  cases op <;> simp [operandOf]

end Phrase

theorem eq_of_layer_eq {op op' : Connective} (h : op.layer = op'.layer) : op = op' := by
  cases op <;> cases op' <;> first | rfl | cases h

/-- A phrase with a formula stands at the front of a list of tokens, and the rest follows it. Most
connectives join what is to the left of them first. -/
inductive Derives : Phrase → Formula → List Token → List Token → Prop
  | truth {v : Bool} {t : String} {p : Nat} {rest : List Token} :
    Derives .primary (.const v) (⟨.truth v, t, p⟩ :: rest) rest
  | next {x t u : String} {p q r s : Nat} {rest : List Token} :
    Derives .primary (.next x)
      (⟨.name, "next", p⟩ :: ⟨.lparen, t, q⟩ :: ⟨.name, x, r⟩ :: ⟨.rparen, u, s⟩ :: rest) rest
  | ident {x : String} {p : Nat} {rest : List Token} :
    (x = "next" → (peek rest).kind ≠ .lparen) → Derives .primary (.ident x) (⟨.name, x, p⟩ :: rest) rest
  | parens {f : Formula} {t u : String} {p q : Nat} {tokens rest : List Token} :
    Derives (.chain .iff) f tokens (⟨.rparen, u, q⟩ :: rest) →
    Derives .primary f (⟨.lparen, t, p⟩ :: tokens) rest
  | not {f : Formula} {t : String} {p : Nat} {tokens rest : List Token} :
    Derives .unary f tokens rest → Derives .unary (.not f) (⟨.bang, t, p⟩ :: tokens) rest
  | atom {f : Formula} {tokens rest : List Token} :
    Derives .primary f tokens rest → Derives .unary f tokens rest
  | single {op : Connective} {f : Formula} {tokens rest : List Token} :
    Derives (.operandOf op) f tokens rest → Derives (.chain op) f tokens rest
  | left {op : Connective} {a b : Formula} {t : String} {p : Nat} {tokens middle rest : List Token} :
    op ≠ .imp → Derives (.chain op) a tokens (⟨.connective op, t, p⟩ :: middle) →
    Derives (.operandOf op) b middle rest → Derives (.chain op) (.binary op a b) tokens rest
  | right {a b : Formula} {t : String} {p : Nat} {tokens middle rest : List Token} :
    Derives (.operandOf .imp) a tokens (⟨.connective .imp, t, p⟩ :: middle) →
    Derives (.chain .imp) b middle rest → Derives (.chain .imp) (.binary .imp a b) tokens rest

/-- The tokens up to the end marker are a formula. -/
def Generates (tokens : List Token) (f : Formula) : Prop :=
  ∃ last : Token, last.kind = .finish ∧ Derives (.chain .iff) f tokens [last]

def outcome {bound : Nat} (x : Except Fault (Parsed bound)) : Except Fault (Formula × List Token) :=
  x.map fun p => (p.formula, p.rest)

/-- The formula and the rest that are read from tokens, layer by layer. -/
def reading (layer : Nat) (tokens : List Token) : Except Fault (Formula × List Token) :=
  outcome (parseLayer layer tokens)

def tailReading (layer : Nat) (left : Formula) (tokens : List Token) :
    Except Fault (Formula × List Token) :=
  outcome (parseTail layer left tokens)

theorem reading_succ (layer : Nat) (tokens : List Token) :
    reading (layer + 1) tokens =
      reading layer tokens >>= fun r => tailReading layer r.1 r.2 := by
  unfold reading
  rw [parseLayer]
  cases parseLayer layer tokens with
  | error e => rfl
  | ok p =>
    obtain ⟨left, rest, h⟩ := p
    change outcome (parseTail layer left rest >>= _) = outcome (parseTail layer left rest)
    cases parseTail layer left rest <;> rfl

theorem reading_bang (t : String) (p : Nat) (tokens : List Token) :
    reading 0 (⟨.bang, t, p⟩ :: tokens) =
      reading 0 tokens >>= fun r => .ok (.not r.1, r.2) := by
  unfold reading
  rw [parseLayer]
  cases parseLayer 0 tokens <;> rfl

theorem reading_truth (v : Bool) (t : String) (p : Nat) (rest : List Token) :
    reading 0 (⟨.truth v, t, p⟩ :: rest) = .ok (.const v, rest) := by
  unfold reading
  rw [parseLayer]
  rfl

theorem reading_next (x t u : String) (p q r s : Nat) (rest : List Token) :
    reading 0 (⟨.name, "next", p⟩ :: ⟨.lparen, t, q⟩ :: ⟨.name, x, r⟩ :: ⟨.rparen, u, s⟩ :: rest) =
      .ok (.next x, rest) := by
  unfold reading
  rw [parseLayer, if_pos rfl]
  rfl

theorem reading_ident {x : String} {rest : List Token}
    (h : x = "next" → (peek rest).kind ≠ .lparen) (p : Nat) :
    reading 0 (⟨.name, x, p⟩ :: rest) = .ok (.ident x, rest) := by
  unfold reading
  by_cases hparen : ∃ t q more, rest = ⟨.lparen, t, q⟩ :: more
  · obtain ⟨t, q, more, rfl⟩ := hparen
    have hx : x ≠ "next" := fun hx => h hx rfl
    unfold parseLayer
    rw [if_neg hx]
    rfl
  · rw [parseLayer]
    · rfl
    · intro t q more hrest
      exact hparen ⟨t, q, more, hrest⟩

theorem reading_next_unclosed (x t : String) (p q r : Nat) {rest : List Token}
    (h : (peek rest).kind ≠ .rparen) :
    reading 0 (⟨.name, "next", p⟩ :: ⟨.lparen, t, q⟩ :: ⟨.name, x, r⟩ :: rest) =
      .error (notClosed (peek rest)) := by
  unfold reading
  rw [parseLayer, if_pos rfl]
  · rfl
  · rintro u s more rfl
    exact h rfl

theorem reading_next_unnamed (t : String) (p q : Nat) {rest : List Token}
    (h : (peek rest).kind ≠ .name) :
    reading 0 (⟨.name, "next", p⟩ :: ⟨.lparen, t, q⟩ :: rest) =
      .error (notVariable (peek rest)) := by
  unfold reading
  rw [parseLayer, if_pos rfl]
  · rfl
  · rintro x r u s more rfl
    exact h rfl
  · rintro x r more rfl
    exact h rfl

def opens : TokenKind → Bool
  | .bang | .truth _ | .name | .lparen => true
  | _ => false

theorem reading_unexpected {tokens : List Token} (h : opens (peek tokens).kind = false) :
    reading 0 tokens = .error (unexpectedToken (peek tokens)) := by
  unfold reading
  rw [parseLayer]
  · rfl
  all_goals
    intros
    subst tokens
    cases h

def closing (f : Formula) : List Token → Except Fault (Formula × List Token)
  | ⟨.rparen, _, _⟩ :: rest => .ok (f, rest)
  | rest => .error (notClosed (peek rest))

theorem closing_eq_ok {f g : Formula} {tokens rest : List Token}
    (h : closing f tokens = .ok (g, rest)) : g = f ∧ ∃ u q, tokens = ⟨.rparen, u, q⟩ :: rest := by
  unfold closing at h
  split at h
  · next u q more =>
    cases h
    exact ⟨rfl, u, q, rfl⟩
  · cases h

theorem reading_parens (t : String) (p : Nat) (tokens : List Token) :
    reading 0 (⟨.lparen, t, p⟩ :: tokens) = reading 5 tokens >>= fun r => closing r.1 r.2 := by
  unfold reading
  conv_lhs => rw [parseLayer]
  cases parseLayer 5 tokens with
  | error e => rfl
  | ok r =>
    obtain ⟨f, rest, h⟩ := r
    rcases rest with _ | ⟨⟨kind, u, q⟩, rest⟩
    · rfl
    · cases kind <;> rfl

theorem tailReading_right {layer : Nat} (himp : Connective.imp.layer = layer + 1) (left : Formula)
    (t : String) (p : Nat) (tokens : List Token) :
    tailReading layer left (⟨.connective .imp, t, p⟩ :: tokens) =
      reading (layer + 1) tokens >>= fun r => .ok (.binary .imp left r.1, r.2) := by
  unfold tailReading reading
  rw [parseTail, if_pos himp, if_pos rfl]
  cases parseLayer (layer + 1) tokens <;> rfl

theorem tailReading_left {op : Connective} {layer : Nat} (hop : op.layer = layer + 1)
    (hne : op ≠ .imp) (left : Formula) (t : String) (p : Nat) (tokens : List Token) :
    tailReading layer left (⟨.connective op, t, p⟩ :: tokens) =
      reading layer tokens >>= fun r => tailReading layer (.binary op left r.1) r.2 := by
  unfold tailReading reading
  rw [parseTail, if_pos hop, if_neg hne]
  cases parseLayer layer tokens with
  | error e => rfl
  | ok p =>
    obtain ⟨right, rest, h⟩ := p
    change outcome (parseTail layer (.binary op left right) rest >>= _) =
      outcome (parseTail layer (.binary op left right) rest)
    cases parseTail layer (.binary op left right) rest <;> rfl

/-- No connective of the layer follows. -/
theorem tailReading_stop {layer : Nat} {tokens : List Token}
    (h : ∀ op, (peek tokens).kind = .connective op → op.layer ≠ layer + 1) (left : Formula) :
    tailReading layer left tokens = .ok (left, tokens) := by
  unfold tailReading
  by_cases hop : ∃ op t p more, tokens = ⟨.connective op, t, p⟩ :: more
  · obtain ⟨op, t, p, more, rfl⟩ := hop
    rw [parseTail, if_neg (h op rfl)]
    rfl
  · rw [parseTail]
    · rfl
    · intro op t p more htokens
      exact hop ⟨op, t, p, more, htokens⟩

/-- What follows does not belong to a phrase of the layer. -/
def Stops (layer : Nat) (rest : List Token) : Prop :=
  ∀ op, (peek rest).kind = .connective op → layer < op.layer

theorem Stops.mono {layer layer' : Nat} {rest : List Token} (h : Stops layer' rest)
    (hle : layer ≤ layer') : Stops layer rest :=
  fun op hop => Nat.lt_of_le_of_lt hle (h op hop)

theorem stops_connective (op : Connective) (t : String) (p : Nat) (rest : List Token) :
    Stops (Phrase.operandOf op).layer (⟨.connective op, t, p⟩ :: rest) := by
  intro op' hop
  obtain rfl : op = op' := TokenKind.connective.inj hop
  rw [Phrase.layer_operandOf]
  exact Nat.lt_succ_self _

theorem tailReading_of_stops {op : Connective} {rest : List Token} (h : Stops op.layer rest)
    (f : Formula) : tailReading (Phrase.operandOf op).layer f rest = .ok (f, rest) := by
  apply tailReading_stop
  intro op' hop
  have hlt : op.layer < op'.layer := h op' hop
  rw [Phrase.layer_operandOf op] at hlt
  omega

theorem reading_chain (op : Connective) (tokens : List Token) :
    reading op.layer tokens = reading (Phrase.operandOf op).layer tokens >>= fun r =>
      tailReading (Phrase.operandOf op).layer r.1 r.2 := by
  conv_lhs => rw [Phrase.layer_operandOf op]
  exact reading_succ _ tokens

/-- A chain ends where nothing of its layer follows. -/
theorem reading_of_tail {op : Connective} {f : Formula} {tokens rest : List Token}
    (h : Stops (Phrase.operandOf op).layer rest →
      reading op.layer tokens = tailReading (Phrase.operandOf op).layer f rest)
    (hstop : Stops op.layer rest) : reading op.layer tokens = .ok (f, rest) := by
  have hlayer : (Phrase.operandOf op).layer ≤ op.layer := by
    rw [Phrase.layer_operandOf op]
    exact Nat.le_succ _
  rw [h (hstop.mono hlayer), tailReading_of_stops hstop]

/-- A phrase is read as soon as what follows does not belong to it. In a chain that goes on to the
right the reader first has the phrase up to that point. -/
theorem Derives.reading {n : Phrase} {f : Formula} {tokens rest : List Token}
    (h : Derives n f tokens rest) :
    (Stops n.layer rest → Formula.reading n.layer tokens = .ok (f, rest)) ∧
    ∀ op, n = .chain op → op ≠ .imp → Stops (Phrase.operandOf op).layer rest →
      Formula.reading op.layer tokens = tailReading (Phrase.operandOf op).layer f rest := by
  induction h with
  | @truth v t p rest => exact ⟨fun _ => reading_truth v t p rest, fun _ hn => by cases hn⟩
  | @next x t u p q r s rest =>
    exact ⟨fun _ => reading_next x t u p q r s rest, fun _ hn => by cases hn⟩
  | @ident x p rest hx => exact ⟨fun _ => reading_ident hx p, fun _ hn => by cases hn⟩
  | @parens f t u p q tokens rest _ ih =>
    have hstop : Stops 5 (⟨.rparen, u, q⟩ :: rest) := fun op hop => by cases hop
    refine ⟨fun _ => ?_, fun _ hn => by cases hn⟩
    change Formula.reading 0 _ = _
    have hread : Formula.reading 5 tokens = .ok (f, ⟨.rparen, u, q⟩ :: rest) := ih.1 hstop
    rw [reading_parens, hread, Attempt.ok_bind]
    rfl
  | @not f t p tokens rest _ ih =>
    refine ⟨fun hstop => ?_, fun _ hn => by cases hn⟩
    change Formula.reading 0 _ = _
    have hread : Formula.reading 0 tokens = .ok (f, rest) := ih.1 hstop
    rw [reading_bang, hread, Attempt.ok_bind]
  | atom _ ih => exact ⟨ih.1, fun _ hn => by cases hn⟩
  | @single op f tokens rest _ ih =>
    have hchain : Stops (Phrase.operandOf op).layer rest →
        Formula.reading op.layer tokens = tailReading (Phrase.operandOf op).layer f rest := by
      intro hstop
      rw [reading_chain, ih.1 hstop, Attempt.ok_bind]
    constructor
    · exact reading_of_tail hchain
    · intro op' hn _
      cases hn
      exact hchain
  | @left op a b t p tokens middle rest hne _ _ iha ihb =>
    have hchain : Stops (Phrase.operandOf op).layer rest → Formula.reading op.layer tokens =
        tailReading (Phrase.operandOf op).layer (.binary op a b) rest := by
      intro hstop
      rw [iha.2 op rfl hne (stops_connective op t p middle),
        tailReading_left (Phrase.layer_operandOf op) hne, ihb.1 hstop, Attempt.ok_bind]
    constructor
    · exact reading_of_tail hchain
    · intro op' hn _
      cases hn
      exact hchain
  | @right a b t p tokens middle rest _ _ iha ihb =>
    refine ⟨fun hstop => ?_, fun op hn hne => by cases hn; exact absurd rfl hne⟩
    change Formula.reading Connective.imp.layer tokens = _
    rw [reading_chain, iha.1 (stops_connective .imp t p middle), Attempt.ok_bind,
      tailReading_right (Phrase.layer_operandOf .imp), ← Phrase.layer_operandOf]
    have hread : Formula.reading Connective.imp.layer middle = .ok (b, rest) := ihb.1 hstop
    rw [hread, Attempt.ok_bind]

/-- The reader's recursion, by what comes first among the tokens. -/
theorem reading_induct {P : Nat → List Token → Prop} {Q : Nat → Formula → List Token → Prop}
    (succ : ∀ layer tokens, P layer tokens →
      (∀ left rest, rest.length < tokens.length → Q layer left rest) → P (layer + 1) tokens)
    (bang : ∀ t p tokens, P 0 tokens → P 0 (⟨.bang, t, p⟩ :: tokens))
    (truth : ∀ v t p tokens, P 0 (⟨.truth v, t, p⟩ :: tokens))
    (next : ∀ x t u p q r s tokens, P 0
      (⟨.name, "next", p⟩ :: ⟨.lparen, t, q⟩ :: ⟨.name, x, r⟩ :: ⟨.rparen, u, s⟩ :: tokens))
    (unclosed : ∀ x t p q r tokens, (peek tokens).kind ≠ .rparen →
      P 0 (⟨.name, "next", p⟩ :: ⟨.lparen, t, q⟩ :: ⟨.name, x, r⟩ :: tokens))
    (unnamed : ∀ t p q tokens, (peek tokens).kind ≠ .name →
      P 0 (⟨.name, "next", p⟩ :: ⟨.lparen, t, q⟩ :: tokens))
    (ident : ∀ x p tokens, (x = "next" → (peek tokens).kind ≠ .lparen) →
      P 0 (⟨.name, x, p⟩ :: tokens))
    (parens : ∀ t p tokens, P 5 tokens → P 0 (⟨.lparen, t, p⟩ :: tokens))
    (unexpected : ∀ tokens, opens (peek tokens).kind = false → P 0 tokens)
    (right : ∀ layer left t p tokens, Connective.imp.layer = layer + 1 → P (layer + 1) tokens →
      Q layer left (⟨.connective .imp, t, p⟩ :: tokens))
    (left : ∀ layer left op t p tokens, op.layer = layer + 1 → op ≠ .imp → P layer tokens →
      (∀ right rest, rest.length < tokens.length → Q layer (.binary op left right) rest) →
      Q layer left (⟨.connective op, t, p⟩ :: tokens))
    (stop : ∀ layer left tokens,
      (∀ op, (peek tokens).kind = .connective op → op.layer ≠ layer + 1) → Q layer left tokens)
    (layer : Nat) (tokens : List Token) : P layer tokens := by
  apply parseLayer.induct P Q
  · exact succ
  · exact bang
  · exact truth
  · intro p t q x r u s tokens
    exact next x t u p q r s tokens
  · intro p t q x r tokens hclosed
    apply unclosed
    intro hkind
    rcases tokens with _ | ⟨⟨kind, u, s⟩, tokens⟩
    · cases hkind
    · cases hkind
      exact hclosed u s tokens rfl
  · intro p t q tokens _ hname
    apply unnamed
    intro hkind
    rcases tokens with _ | ⟨⟨kind, x, r⟩, tokens⟩
    · cases hkind
    · cases hkind
      exact hname x r tokens rfl
  · intro x p t q tokens hx
    exact ident x p _ fun h => absurd h hx
  · intro x p tokens hparen
    apply ident
    rintro - hkind
    rcases tokens with _ | ⟨⟨kind, t, q⟩, tokens⟩
    · cases hkind
    · cases hkind
      exact hparen t q tokens rfl
  · exact parens
  · intro tokens hbang htruth _ hname hparen
    apply unexpected
    rcases tokens with _ | ⟨⟨kind, t, q⟩, tokens⟩
    · rfl
    · cases kind with
      | bang => exact (hbang t q tokens rfl).elim
      | truth v => exact (htruth v t q tokens rfl).elim
      | name => exact (hname t q tokens rfl).elim
      | lparen => exact (hparen t q tokens rfl).elim
      | finish | connective op | rparen => rfl
  · exact right
  · exact left
  · intro layer left op t p tokens hop
    apply stop
    intro op' hop'
    cases hop'
    exact hop
  · intro layer left tokens hnone
    apply stop
    intro op hop
    rcases tokens with _ | ⟨⟨kind, t, q⟩, tokens⟩
    · cases hop
    · cases hop
      exact absurd rfl (hnone op t q tokens)

theorem length_lt_of_reading {layer : Nat} {tokens rest : List Token} {f : Formula}
    (h : reading layer tokens = .ok (f, rest)) : rest.length < tokens.length := by
  unfold reading at h
  cases hp : parseLayer layer tokens with
  | error e =>
    rw [hp] at h
    cases h
  | ok r =>
    rw [hp] at h
    cases h
    exact r.shorter

def LayerSound (layer : Nat) (tokens : List Token) : Prop :=
  ∀ n : Phrase, n.layer = layer → n ≠ .primary → ∀ f rest,
    reading layer tokens = .ok (f, rest) → Derives n f tokens rest

/-- What is read behind an operand, or behind a chain that groups to the left, makes a chain of it. -/
def TailSound (layer : Nat) (left : Formula) (tokens : List Token) : Prop :=
  ∀ op : Connective, op.layer = layer + 1 → ∀ f rest,
    tailReading layer left tokens = .ok (f, rest) → ∀ start,
    Derives (.operandOf op) left start tokens ∨
      op ≠ .imp ∧ Derives (.chain op) left start tokens →
    Derives (.chain op) f start rest

theorem chain_of_start {op : Connective} {left : Formula} {start tokens : List Token}
    (h : Derives (.operandOf op) left start tokens ∨
      op ≠ .imp ∧ Derives (.chain op) left start tokens) : Derives (.chain op) left start tokens := by
  rcases h with hleft | ⟨-, hleft⟩
  · exact .single hleft
  · exact hleft

theorem layerSound_zero {tokens : List Token}
    (h : ∀ f rest, reading 0 tokens = .ok (f, rest) → Derives .unary f tokens rest) :
    LayerSound 0 tokens := by
  intro n hn hprimary f rest hread
  cases n with
  | chain op => cases op <;> cases hn
  | unary => exact h f rest hread
  | primary => exact absurd rfl hprimary

theorem layerSound_error {tokens : List Token} {e : Fault} (h : reading 0 tokens = .error e) :
    LayerSound 0 tokens := by
  apply layerSound_zero
  intro f rest hread
  rw [h] at hread
  cases hread

theorem layerSound_succ {layer : Nat} {tokens : List Token} (h : LayerSound layer tokens)
    (htail : ∀ left rest, rest.length < tokens.length → TailSound layer left rest) :
    LayerSound (layer + 1) tokens := by
  intro n hn hprimary f rest hread
  cases n with
  | unary => cases hn
  | primary => exact absurd rfl hprimary
  | chain op =>
    have hop : op.layer = layer + 1 := hn
    have hoperand := Phrase.layer_of_operandOf hop
    rw [reading_succ] at hread
    obtain ⟨⟨left, middle⟩, hleft, hread⟩ := Attempt.bind_eq_ok.mp hread
    have hderives := h _ hoperand (Phrase.operandOf_ne_primary op) left middle hleft
    have hlt := length_lt_of_reading hleft
    exact htail left middle hlt op hop f rest hread tokens (.inl hderives)

theorem layerSound_bang {t : String} {p : Nat} {tokens : List Token} (h : LayerSound 0 tokens) :
    LayerSound 0 (⟨.bang, t, p⟩ :: tokens) := by
  apply layerSound_zero
  intro f rest hread
  rw [reading_bang] at hread
  obtain ⟨⟨g, rest'⟩, hg, hread⟩ := Attempt.bind_eq_ok.mp hread
  cases hread
  exact .not (h .unary rfl (by simp) g rest' hg)

theorem layerSound_ident {x : String} {p : Nat} {tokens : List Token}
    (hx : x = "next" → (peek tokens).kind ≠ .lparen) :
    LayerSound 0 (⟨.name, x, p⟩ :: tokens) := by
  apply layerSound_zero
  intro f rest hread
  rw [reading_ident hx] at hread
  cases hread
  exact .atom (.ident hx)

theorem layerSound_parens {t : String} {p : Nat} {tokens : List Token} (h : LayerSound 5 tokens) :
    LayerSound 0 (⟨.lparen, t, p⟩ :: tokens) := by
  apply layerSound_zero
  intro f rest hread
  rw [reading_parens] at hread
  obtain ⟨⟨g, rest'⟩, hg, hread⟩ := Attempt.bind_eq_ok.mp hread
  obtain ⟨rfl, u, q, rfl⟩ := closing_eq_ok hread
  exact .atom (.parens (h (.chain .iff) rfl (by simp) f _ hg))

theorem tailSound_right {layer : Nat} {left : Formula} {t : String} {p : Nat}
    {tokens : List Token} (himp : Connective.imp.layer = layer + 1)
    (h : LayerSound (layer + 1) tokens) :
    TailSound layer left (⟨.connective .imp, t, p⟩ :: tokens) := by
  intro op hop f rest hread start hstart
  obtain rfl : op = .imp := eq_of_layer_eq (hop.trans himp.symm)
  rw [tailReading_right himp] at hread
  obtain ⟨⟨b, rest'⟩, hb, hread⟩ := Attempt.bind_eq_ok.mp hread
  cases hread
  rcases hstart with hleft | ⟨hne, -⟩
  · exact .right hleft (h (.chain .imp) himp (by simp) b rest' hb)
  · exact absurd rfl hne

theorem tailSound_left {op : Connective} {layer : Nat} {left : Formula} {t : String} {p : Nat}
    {tokens : List Token} (hop : op.layer = layer + 1) (hne : op ≠ .imp)
    (h : LayerSound layer tokens)
    (htail : ∀ right rest, rest.length < tokens.length →
      TailSound layer (.binary op left right) rest) :
    TailSound layer left (⟨.connective op, t, p⟩ :: tokens) := by
  intro op' hop' f rest hread start hstart
  obtain rfl : op' = op := eq_of_layer_eq (hop'.trans hop.symm)
  have hoperand := Phrase.layer_of_operandOf hop
  rw [tailReading_left hop hne] at hread
  obtain ⟨⟨b, middle⟩, hb, hread⟩ := Attempt.bind_eq_ok.mp hread
  have hright := h _ hoperand (Phrase.operandOf_ne_primary op') b middle hb
  have hchain := chain_of_start hstart
  have hlt := length_lt_of_reading hb
  exact htail b middle hlt op' hop f rest hread start (.inr ⟨hne, .left hne hchain hright⟩)

theorem tailSound_stop {layer : Nat} {left : Formula} {tokens : List Token}
    (h : ∀ op, (peek tokens).kind = .connective op → op.layer ≠ layer + 1) :
    TailSound layer left tokens := by
  intro op hop f rest hread start hstart
  rw [tailReading_stop h] at hread
  cases hread
  exact chain_of_start hstart

theorem layerSound (layer : Nat) (tokens : List Token) : LayerSound layer tokens := by
  induction layer, tokens using reading_induct (Q := TailSound) with
  | succ layer tokens h htail => exact layerSound_succ h htail
  | bang t p tokens h => exact layerSound_bang h
  | truth v t p tokens =>
    apply layerSound_zero
    intro f rest hread
    rw [reading_truth] at hread
    cases hread
    exact .atom .truth
  | next x t u p q r s tokens =>
    apply layerSound_zero
    intro f rest hread
    rw [reading_next] at hread
    cases hread
    exact .atom .next
  | unclosed x t p q r tokens h => exact layerSound_error (reading_next_unclosed x t p q r h)
  | unnamed t p q tokens h => exact layerSound_error (reading_next_unnamed t p q h)
  | ident x p tokens hx => exact layerSound_ident hx
  | parens t p tokens h => exact layerSound_parens h
  | unexpected tokens h => exact layerSound_error (reading_unexpected h)
  | right layer left t p tokens himp h => exact tailSound_right himp h
  | left layer left op t p tokens hop hne h htail => exact tailSound_left hop hne h htail
  | stop layer left tokens h => exact tailSound_stop h

/-- A phrase does not reach behind the end marker. -/
theorem Derives.exists_phrase {n : Phrase} {f : Formula} {tokens rest : List Token}
    (h : Derives n f tokens rest) :
    ∃ phrase, tokens = phrase ++ rest ∧ ∀ t ∈ phrase, t.kind ≠ .finish := by
  induction h with
  | @truth v t p rest => exact ⟨[⟨.truth v, t, p⟩], rfl, by simp⟩
  | @next x t u p q r s rest =>
    exact ⟨[⟨.name, "next", p⟩, ⟨.lparen, t, q⟩, ⟨.name, x, r⟩, ⟨.rparen, u, s⟩], rfl, by simp⟩
  | @ident x p rest _ => exact ⟨[⟨.name, x, p⟩], rfl, by simp⟩
  | @parens f t u p q tokens rest _ ih =>
    obtain ⟨phrase, rfl, hphrase⟩ := ih
    refine ⟨⟨.lparen, t, p⟩ :: phrase ++ [⟨.rparen, u, q⟩], by simp, ?_⟩
    simpa [or_imp, forall_and] using hphrase
  | @not f t p tokens rest _ ih =>
    obtain ⟨phrase, rfl, hphrase⟩ := ih
    exact ⟨⟨.bang, t, p⟩ :: phrase, rfl, by simpa using hphrase⟩
  | atom _ ih => exact ih
  | single _ ih => exact ih
  | @left op a b t p tokens middle rest _ _ _ iha ihb =>
    obtain ⟨phrase, rfl, hphrase⟩ := iha
    obtain ⟨phrase', rfl, hphrase'⟩ := ihb
    refine ⟨phrase ++ ⟨.connective op, t, p⟩ :: phrase', by simp, ?_⟩
    simpa [or_imp, forall_and] using ⟨hphrase, hphrase'⟩
  | @right a b t p tokens middle rest _ _ iha ihb =>
    obtain ⟨phrase, rfl, hphrase⟩ := iha
    obtain ⟨phrase', rfl, hphrase'⟩ := ihb
    refine ⟨phrase ++ ⟨.connective .imp, t, p⟩ :: phrase', by simp, ?_⟩
    simpa [or_imp, forall_and] using ⟨hphrase, hphrase'⟩

theorem parseTokens_eq_ok_iff {tokens : List Token} {f : Formula} :
    parseTokens tokens = .ok f ↔
      ∃ rest, reading 5 tokens = .ok (f, rest) ∧ (peek rest).kind = .finish := by
  unfold parseTokens reading
  cases parseLayer 5 tokens with
  | error e =>
    constructor
    · intro h
      cases h
    · rintro ⟨rest, h, -⟩
      cases h
  | ok r =>
    obtain ⟨g, rest, hlt⟩ := r
    rw [Attempt.ok_bind]
    constructor
    · intro h
      refine ⟨rest, ?_⟩
      cases hkind : (peek rest).kind <;> simp only [hkind] at h <;> cases h
      exact ⟨rfl, rfl⟩
    · rintro ⟨rest', h, hkind⟩
      cases h
      simp only [hkind]
      rfl

theorem Generates.reading {tokens : List Token} {f : Formula} (h : Generates tokens f) :
    ∃ last : Token, last.kind = .finish ∧ Formula.reading 5 tokens = .ok (f, [last]) := by
  obtain ⟨last, hlast, hderives⟩ := h
  refine ⟨last, hlast, hderives.reading.1 fun op hop => ?_⟩
  have hfinish : (peek [last]).kind = .finish := hlast
  rw [hfinish] at hop
  cases hop

/-- Between the tokens of a text and the end marker there is nothing left to read. -/
theorem parseTokens_scan {pos : Nat} {cs : List Char} {tokens : List Token} {f : Formula}
    (hscan : Token.scan pos cs = .ok tokens) : parseTokens tokens = .ok f ↔ Generates tokens f := by
  rw [parseTokens_eq_ok_iff]
  constructor
  · rintro ⟨rest, hread, hkind⟩
    have hderives := layerSound 5 tokens (.chain .iff) rfl (by simp) f rest hread
    obtain ⟨phrase, htokens, hphrase⟩ := hderives.exists_phrase
    obtain ⟨body, last, rfl, hlast, hbody⟩ := Token.exists_lexemes hscan
    have hbody_ne : ∀ t ∈ body, t.kind ≠ .finish := by
      intro t ht
      obtain ⟨c, cs', more, hlexeme, -⟩ := hbody t ht
      exact Token.lexeme_ne_finish hlexeme
    -- The rest is a final part, and only the last token is an end marker.
    obtain rfl : rest = [last] := by
      rcases List.append_eq_append_iff.mp htokens with ⟨more, rfl, hmore⟩ | ⟨more, rfl, rfl⟩
      · rcases more with _ | ⟨t, more⟩
        · exact hmore.symm
        · obtain ⟨rfl, hnil⟩ := List.cons.inj hmore
          exact absurd hlast (hphrase last (by simp))
      · rcases more with _ | ⟨t, more⟩
        · rfl
        · exact absurd hkind (hbody_ne t (by simp))
    exact ⟨last, hlast, hderives⟩
  · intro h
    obtain ⟨last, hlast, hread⟩ := h.reading
    exact ⟨[last], hread, hlast⟩

theorem Generates.unique {tokens : List Token} {f g : Formula} (hf : Generates tokens f)
    (hg : Generates tokens g) : f = g := by
  obtain ⟨last, -, hread⟩ := hf.reading
  obtain ⟨last', -, hread'⟩ := hg.reading
  exact (Prod.mk.inj (Except.ok.inj (hread.symm.trans hread'))).1

theorem parse_eq_ok_iff {input : String} {f : Formula} :
    parse input = .ok f ↔
      ∃ tokens, Token.scan 0 input.toList = .ok tokens ∧ parseTokens tokens = .ok f := by
  rw [← Attempt.bind_eq_ok, parse]
  cases Token.scan 0 input.toList >>= parseTokens with
  | error e => simp
  | ok g => simp

/-- A text is read as a formula exactly when its tokens are that formula in the grammar, and tokens
are at most one formula. -/
theorem parse_exact (input : String) :
    (∀ f, parse input = .ok f ↔
      ∃ tokens, Token.scan 0 input.toList = .ok tokens ∧ Generates tokens f) ∧
    ∀ tokens f g, Generates tokens f → Generates tokens g → f = g := by
  constructor
  · intro f
    rw [parse_eq_ok_iff]
    refine exists_congr fun tokens => and_congr_right fun hscan => ?_
    exact parseTokens_scan hscan
  · intro tokens f g hf hg
    exact hf.unique hg

def implications : List Token :=
  [⟨.name, "a", 0⟩, ⟨.connective .imp, "->", 2⟩, ⟨.name, "b", 5⟩, ⟨.connective .imp, "->", 7⟩,
    ⟨.name, "next", 10⟩, ⟨.finish, "", 14⟩]

/-- Of two implications in a row the second is part of the first. -/
theorem generates_implications :
    Generates implications (.binary .imp (.ident "a") (.binary .imp (.ident "b") (.ident "next"))) ∧
    ∀ g, Generates implications g →
      g = .binary .imp (.ident "a") (.binary .imp (.ident "b") (.ident "next")) := by
  have hname : ∀ {x p rest}, (x = "next" → (peek rest).kind ≠ .lparen) →
      Derives (.chain .or) (.ident x) (⟨.name, x, p⟩ :: rest) rest :=
    fun hx => .single (.single (.single (.atom (.ident hx))))
  have hgenerates : Generates implications
      (.binary .imp (.ident "a") (.binary .imp (.ident "b") (.ident "next"))) :=
    ⟨_, rfl, .single (.right (hname (by decide))
      (.right (hname (by decide)) (.single (hname (by decide)))))⟩
  refine ⟨hgenerates, ?_⟩
  intro g hg
  exact (parse_exact "a -> b -> next").2 implications _ _ hg hgenerates

end Formula
end SymbolicLtl
