import SymbolicLtl.Proofs.Formula.Spacing

/-!
Where the reader gives up. What it has taken up to there can be completed to a formula, and no formula
starts with that and the token at which it fails. So it always names the first token that is wrong.
-/
namespace SymbolicLtl

namespace Formula

abbrev Reader := List Token → Except Fault (Formula × List Token)

theorem Stops.of_peek {layer : Nat} {rest rest' : List Token} (h : Stops layer rest)
    (hpeek : peek rest' = peek rest) : Stops layer rest' := by
  intro op hop
  rw [hpeek] at hop
  exact h op hop

theorem stops_zero (rest : List Token) : Stops 0 rest := by
  intro op _
  rw [Phrase.layer_operandOf]
  exact Nat.zero_lt_succ _

theorem stops_nil (layer : Nat) : Stops layer [] := by
  intro op hop
  cases hop

/-- What is read ends where it cannot go on, and would be read in front of anything else that cannot
go on with it. A name might go on with an opening parenthesis. -/
def Bounded (read : Reader) (layer : Nat) (tokens : List Token) : Prop :=
  ∀ f rest, read tokens = .ok (f, rest) → Stops layer rest ∧
    ∃ used, tokens = used ++ rest ∧ ∀ rest', Stops layer rest' →
      ((peek rest').kind = .lparen → (peek rest).kind = .lparen) →
      read (used ++ rest') = .ok (f, rest')

theorem bounded_of_error {read : Reader} {layer : Nat} {tokens : List Token} {e : Fault}
    (h : read tokens = .error e) : Bounded read layer tokens := by
  intro f rest hread
  rw [h] at hread
  cases hread

theorem bounded_of_ok {read : Reader} {layer : Nat} (used : List Token) {rest : List Token}
    {f : Formula} (hstops : Stops layer rest)
    (h : ∀ rest', Stops layer rest' → ((peek rest').kind = .lparen → (peek rest).kind = .lparen) →
      read (used ++ rest') = .ok (f, rest')) : Bounded read layer (used ++ rest) := by
  intro g rest' hread
  rw [h rest hstops id] at hread
  cases hread
  exact ⟨hstops, used, rfl, h⟩

theorem Bounded.cons {read : Reader} {layer : Nat} {t : Token} {tokens : List Token}
    (h : Bounded (fun ts => read (t :: ts)) layer tokens) : Bounded read layer (t :: tokens) := by
  intro f rest hread
  obtain ⟨hstops, used, rfl, hused⟩ := h f rest hread
  exact ⟨hstops, t :: used, rfl, hused⟩

theorem Bounded.bind {read : Reader} {inner layer : Nat} {tokens : List Token}
    (h : Bounded read inner tokens) (next : Formula → Reader) (hle : inner ≤ layer)
    (hnext : ∀ left rest, read tokens = .ok (left, rest) → Stops inner rest →
      Bounded (next left) layer rest) :
    Bounded (fun ts => read ts >>= fun r => next r.1 r.2) layer tokens := by
  intro f rest hread
  obtain ⟨⟨left, middle⟩, hleft, hright⟩ := Attempt.bind_eq_ok.mp hread
  obtain ⟨hmiddle, used, rfl, hused⟩ := h left middle hleft
  obtain ⟨hstops, used', rfl, hused'⟩ := hnext left middle hleft hmiddle f rest hright
  refine ⟨hstops, used ++ used', by rw [List.append_assoc], ?_⟩
  intro rest' hrest' hparen
  have hfirst : read (used ++ (used' ++ rest')) = .ok (left, used' ++ rest') := by
    cases used' with
    | nil => exact hused rest' (hrest'.mono hle) hparen
    | cons u used' => exact hused _ (hmiddle.of_peek rfl) id
  change read (used ++ used' ++ rest') >>= _ = _
  rw [List.append_assoc, hfirst, Attempt.ok_bind]
  exact hused' rest' hrest' hparen

theorem Bounded.map {read : Reader} {layer : Nat} {tokens : List Token} (g : Formula → Formula)
    (h : Bounded read layer tokens) :
    Bounded (fun ts => read ts >>= fun r => .ok (g r.1, r.2)) layer tokens := by
  refine h.bind (fun f ts => .ok (g f, ts)) (Nat.le_refl layer) ?_
  intro f rest _ hstops
  exact bounded_of_ok [] hstops fun _ _ _ => rfl

/-- Two tokens that complete every formula that is cut off. -/
def operand : Token := ⟨.name, "x", 0⟩

@[inherit_doc operand] def closer : Token := ⟨.rparen, ")", 0⟩

/-- The tokens before `t` are the beginning of a phrase, and with `t` they are not. -/
structure FailsAt (read : Reader) (layer : Nat) (before : List Token) (t : Token) : Prop where
  stuck : ∀ more, peek more = t → ∃ fault, read (before ++ more) = .error fault
  completed : ∃ more, (∀ u ∈ more, u = operand ∨ u = closer) ∧ ∀ rest, Stops layer rest →
    (peek rest).kind ≠ .lparen → ∃ f, read (before ++ more ++ rest) = .ok (f, rest)

def Located (read : Reader) (layer : Nat) (tokens : List Token) : Prop :=
  ∀ e, read tokens = .error e → ∃ before after, tokens = before ++ after ∧
    e.1 = (peek after).pos ∧ FailsAt read layer before (peek after)

theorem located_of_ok {read : Reader} {layer : Nat} {tokens : List Token}
    {r : Formula × List Token} (h : read tokens = .ok r) : Located read layer tokens := by
  intro e hread
  rw [h] at hread
  cases hread

theorem Located.cons {read : Reader} {layer : Nat} {t : Token} {tokens : List Token}
    (h : Located (fun ts => read (t :: ts)) layer tokens) : Located read layer (t :: tokens) := by
  intro e hread
  obtain ⟨before, after, rfl, hpos, hfails⟩ := h e hread
  exact ⟨t :: before, after, rfl, hpos, hfails.stuck, hfails.completed⟩

theorem Located.bind {read : Reader} {inner layer : Nat} {tokens : List Token}
    (h : Located read inner tokens) (hbounded : Bounded read inner tokens)
    (next : Formula → Reader) (hle : inner ≤ layer)
    (hstop : ∀ left rest, Stops layer rest → ∃ f, next left rest = .ok (f, rest))
    (hnext : ∀ left t rest, read tokens = .ok (left, t :: rest) → Stops inner (t :: rest) →
      Located (fun ts => next left (t :: ts)) layer rest) :
    Located (fun ts => read ts >>= fun r => next r.1 r.2) layer tokens := by
  intro e hread
  rcases Attempt.bind_eq_error.mp hread with hleft | ⟨⟨left, middle⟩, hleft, hright⟩
  · obtain ⟨before, after, rfl, hpos, hstuck, more, hmore, hcompleted⟩ := h e hleft
    refine ⟨before, after, rfl, hpos, ?_, more, hmore, ?_⟩
    · intro more hpeek
      obtain ⟨fault, hfault⟩ := hstuck more hpeek
      refine ⟨fault, ?_⟩
      rw [hfault, Attempt.error_bind]
    · intro rest hrest hparen
      obtain ⟨left, hleft⟩ := hcompleted rest (hrest.mono hle) hparen
      obtain ⟨f, hf⟩ := hstop left rest hrest
      refine ⟨f, ?_⟩
      rw [hleft, Attempt.ok_bind]
      exact hf
  · cases middle with
    | nil =>
      obtain ⟨f, hf⟩ := hstop left [] (stops_nil layer)
      rw [hf] at hright
      cases hright
    | cons t middle =>
      obtain ⟨hmiddle, used, rfl, hused⟩ := hbounded left _ hleft
      obtain ⟨before, after, rfl, hpos, hstuck, more, hmore, hcompleted⟩ :=
        hnext left t middle hleft hmiddle e hright
      -- The operand is read as before, whatever stands behind the connective `t`.
      have hsame : ∀ ts, (read (used ++ t :: ts) >>= fun r => next r.1 r.2) = next left (t :: ts) := by
        intro ts
        rw [hused (t :: ts) (hmiddle.of_peek rfl) id, Attempt.ok_bind]
      refine ⟨used ++ t :: before, after, by simp, hpos, ?_, more, hmore, ?_⟩
      · intro more hpeek
        obtain ⟨fault, hfault⟩ := hstuck more hpeek
        refine ⟨fault, ?_⟩
        rw [← hfault, ← hsame]
        simp
      · intro rest hrest hparen
        obtain ⟨f, hf⟩ := hcompleted rest hrest hparen
        refine ⟨f, ?_⟩
        rw [← hf, ← hsame]
        simp

theorem Located.map {read : Reader} {layer : Nat} {tokens : List Token} (g : Formula → Formula)
    (hbounded : Bounded read layer tokens) (h : Located read layer tokens) :
    Located (fun ts => read ts >>= fun r => .ok (g r.1, r.2)) layer tokens := by
  refine h.bind hbounded (fun f ts => .ok (g f, ts)) (Nat.le_refl layer) ?_ ?_
  · intro f rest _
    exact ⟨g f, rfl⟩
  · intro f t rest _ _
    exact located_of_ok rfl

def LayerLocated (layer : Nat) (tokens : List Token) : Prop :=
  Bounded (reading layer) layer tokens ∧ Located (reading layer) layer tokens

/-- What follows an operand. A fault is never at the connective itself. -/
def TailLocated (layer : Nat) (left : Formula) (tokens : List Token) : Prop :=
  Stops layer tokens → Bounded (tailReading layer left) (layer + 1) tokens ∧
    ∀ t rest, tokens = t :: rest →
      Located (fun ts => tailReading layer left (t :: ts)) (layer + 1) rest

theorem tailReading_eq_ok {layer : Nat} {rest : List Token} (h : Stops (layer + 1) rest)
    (left : Formula) : tailReading layer left rest = .ok (left, rest) := by
  apply tailReading_stop
  intro op hop
  exact Nat.ne_of_gt (h op hop)

theorem layerLocated_succ {layer : Nat} {tokens : List Token} (h : LayerLocated layer tokens)
    (htail : ∀ left rest, rest.length < tokens.length → TailLocated layer left rest) :
    LayerLocated (layer + 1) tokens := by
  have hreading : reading (layer + 1) =
      fun ts => reading layer ts >>= fun r => tailReading layer r.1 r.2 :=
    funext (reading_succ layer)
  unfold LayerLocated
  rw [hreading]
  constructor
  · apply h.1.bind (tailReading layer) (Nat.le_succ layer)
    intro left rest hleft hstops
    exact (htail left rest (length_lt_of_reading hleft) hstops).1
  · apply h.2.bind h.1 (tailReading layer) (Nat.le_succ layer)
    · intro left rest hstops
      exact ⟨left, tailReading_eq_ok hstops left⟩
    · intro left t rest hleft hstops
      exact (htail left (t :: rest) (length_lt_of_reading hleft) hstops).2 t rest rfl

theorem layerLocated_bang {t : String} {p : Nat} {tokens : List Token}
    (h : LayerLocated 0 tokens) : LayerLocated 0 (⟨.bang, t, p⟩ :: tokens) := by
  have hreading : (fun ts => reading 0 (⟨.bang, t, p⟩ :: ts)) =
      fun ts => reading 0 ts >>= fun r => .ok (.not r.1, r.2) :=
    funext (reading_bang t p)
  constructor
  · apply Bounded.cons
    rw [hreading]
    exact h.1.map .not
  · apply Located.cons
    rw [hreading]
    exact h.2.map .not h.1

theorem layerLocated_of_ok (used : List Token) {rest : List Token} {f : Formula}
    (h : ∀ rest', ((peek rest').kind = .lparen → (peek rest).kind = .lparen) →
      reading 0 (used ++ rest') = .ok (f, rest')) : LayerLocated 0 (used ++ rest) := by
  constructor
  · exact bounded_of_ok used (stops_zero rest) fun rest' _ => h rest'
  · exact located_of_ok (h rest id)

theorem layerLocated_of_error (before more : List Token) {after : List Token} {e : Token → Fault}
    {f : Formula}
    (hpos : (e (peek after)).1 = (peek after).pos)
    (hstuck : ∀ after', peek after' = peek after →
      reading 0 (before ++ after') = .error (e (peek after')))
    (hmore : ∀ u ∈ more, u = operand ∨ u = closer)
    (hcompleted : ∀ rest, reading 0 (before ++ more ++ rest) = .ok (f, rest)) :
    LayerLocated 0 (before ++ after) := by
  constructor
  · exact bounded_of_error (hstuck after rfl)
  · intro fault hread
    rw [hstuck after rfl] at hread
    cases hread
    refine ⟨before, after, rfl, hpos, ?_, more, hmore, ?_⟩
    · intro after' hpeek
      exact ⟨_, hstuck after' hpeek⟩
    · intro rest _ _
      exact ⟨f, hcompleted rest⟩

theorem layerLocated_unclosed {x t : String} {p q r : Nat} {tokens : List Token}
    (h : (peek tokens).kind ≠ .rparen) :
    LayerLocated 0 (⟨.name, "next", p⟩ :: ⟨.lparen, t, q⟩ :: ⟨.name, x, r⟩ :: tokens) := by
  apply layerLocated_of_error [⟨.name, "next", p⟩, ⟨.lparen, t, q⟩, ⟨.name, x, r⟩] [closer]
    (e := notClosed) rfl
  · intro after hpeek
    rw [← hpeek] at h
    exact reading_next_unclosed x t p q r h
  · simp
  · intro rest
    exact reading_next x t ")" p q r 0 rest

theorem layerLocated_unnamed {t : String} {p q : Nat} {tokens : List Token}
    (h : (peek tokens).kind ≠ .name) :
    LayerLocated 0 (⟨.name, "next", p⟩ :: ⟨.lparen, t, q⟩ :: tokens) := by
  apply layerLocated_of_error [⟨.name, "next", p⟩, ⟨.lparen, t, q⟩] [operand, closer]
    (e := notVariable) rfl
  · intro after hpeek
    rw [← hpeek] at h
    exact reading_next_unnamed t p q h
  · simp
  · intro rest
    exact reading_next "x" t ")" p q 0 0 rest

theorem pos_unexpectedToken (t : Token) : (unexpectedToken t).1 = t.pos := by
  unfold unexpectedToken
  split <;> rfl

theorem layerLocated_unexpected {tokens : List Token} (h : opens (peek tokens).kind = false) :
    LayerLocated 0 tokens := by
  apply layerLocated_of_error [] [operand] (pos_unexpectedToken _)
  · intro after hpeek
    rw [← hpeek] at h
    exact reading_unexpected h
  · simp
  · intro rest
    exact reading_ident (x := "x") (by simp) 0

theorem closing_eq_error {f : Formula} {tokens : List Token} (h : (peek tokens).kind ≠ .rparen) :
    closing f tokens = .error (notClosed (peek tokens)) := by
  unfold closing
  split
  · exact absurd rfl h
  · rfl

theorem stops_rparen (layer : Nat) (u : String) (q : Nat) (rest : List Token) :
    Stops layer (⟨.rparen, u, q⟩ :: rest) := by
  intro op hop
  cases hop

theorem rparen_ne_lparen (u : String) (q : Nat) (rest : List Token) :
    (peek (⟨.rparen, u, q⟩ :: rest)).kind ≠ .lparen := by
  simp [peek]

theorem bounded_parens {t : String} {p : Nat} {tokens : List Token}
    (h : Bounded (reading 5) 5 tokens) : Bounded (reading 0) 0 (⟨.lparen, t, p⟩ :: tokens) := by
  intro f rest hread
  rw [reading_parens] at hread
  obtain ⟨⟨g, middle⟩, hinner, hclosing⟩ := Attempt.bind_eq_ok.mp hread
  obtain ⟨rfl, u, q, rfl⟩ := closing_eq_ok hclosing
  obtain ⟨-, used, rfl, hused⟩ := h _ _ hinner
  refine ⟨stops_zero rest, ⟨.lparen, t, p⟩ :: used ++ [⟨.rparen, u, q⟩], by simp, ?_⟩
  intro rest' _ _
  have hinner' := hused _ (stops_rparen 5 u q rest') fun h => absurd h (rparen_ne_lparen u q rest')
  rw [List.append_assoc, List.cons_append, reading_parens, List.singleton_append, hinner']
  rfl

/-- Either the formula in parentheses is faulty, or it is not closed. -/
theorem located_parens {t : String} {p : Nat} {tokens : List Token}
    (hbounded : Bounded (reading 5) 5 tokens) (h : Located (reading 5) 5 tokens) :
    Located (reading 0) 0 (⟨.lparen, t, p⟩ :: tokens) := by
  intro e hread
  rw [reading_parens] at hread
  rcases Attempt.bind_eq_error.mp hread with hinner | ⟨⟨g, middle⟩, hinner, hclosing⟩
  · obtain ⟨before, after, rfl, hpos, hstuck, more, hmore, hcompleted⟩ := h e hinner
    refine ⟨⟨.lparen, t, p⟩ :: before, after, rfl, hpos, ?_, more ++ [closer], ?_, ?_⟩
    · intro after' hpeek
      obtain ⟨fault, hfault⟩ := hstuck after' hpeek
      refine ⟨fault, ?_⟩
      rw [List.cons_append, reading_parens, hfault, Attempt.error_bind]
    · simpa [or_imp, forall_and] using hmore
    · intro rest _ _
      obtain ⟨f, hf⟩ := hcompleted (closer :: rest) (stops_rparen 5 ")" 0 rest)
        (rparen_ne_lparen ")" 0 rest)
      have htokens : ⟨.lparen, t, p⟩ :: before ++ (more ++ [closer]) ++ rest =
          ⟨.lparen, t, p⟩ :: (before ++ more ++ closer :: rest) := by
        simp
      refine ⟨f, ?_⟩
      rw [htokens, reading_parens, hf]
      rfl
  · have hkind : (peek middle).kind ≠ .rparen := by
      intro hkind
      rcases middle with _ | ⟨⟨kind, u, q⟩, rest⟩
      · cases hkind
      · cases hkind
        cases hclosing
    rw [closing_eq_error hkind] at hclosing
    cases hclosing
    obtain ⟨hmiddle, used, rfl, hused⟩ := hbounded g middle hinner
    refine ⟨⟨.lparen, t, p⟩ :: used, middle, rfl, rfl, ?_, [closer], by simp, ?_⟩
    · intro after hpeek
      have hinner' := hused after (hmiddle.of_peek hpeek) (by rw [hpeek]; exact id)
      rw [← hpeek] at hkind
      rw [List.cons_append, reading_parens, hinner', Attempt.ok_bind]
      exact ⟨_, closing_eq_error hkind⟩
    · intro rest _ _
      have hinner' := hused _ (stops_rparen 5 ")" 0 rest) fun h =>
        absurd h (rparen_ne_lparen ")" 0 rest)
      refine ⟨g, ?_⟩
      rw [List.append_assoc, List.cons_append, reading_parens, List.singleton_append, closer,
        hinner']
      rfl

theorem tailLocated_right {layer : Nat} {left : Formula} {t : String} {p : Nat}
    {tokens : List Token} (himp : Connective.imp.layer = layer + 1)
    (h : LayerLocated (layer + 1) tokens) :
    TailLocated layer left (⟨.connective .imp, t, p⟩ :: tokens) := by
  have hreading : (fun ts => tailReading layer left (⟨.connective .imp, t, p⟩ :: ts)) =
      fun ts => reading (layer + 1) ts >>= fun r => .ok (.binary .imp left r.1, r.2) :=
    funext (tailReading_right himp left t p)
  intro _
  constructor
  · apply Bounded.cons
    rw [hreading]
    exact h.1.map (.binary .imp left)
  · rintro u rest ⟨⟩
    rw [hreading]
    exact h.2.map (.binary .imp left) h.1

theorem tailLocated_left {op : Connective} {layer : Nat} {left : Formula} {t : String} {p : Nat}
    {tokens : List Token} (hop : op.layer = layer + 1) (hne : op ≠ .imp)
    (h : LayerLocated layer tokens)
    (htail : ∀ right rest, rest.length < tokens.length →
      TailLocated layer (.binary op left right) rest) :
    TailLocated layer left (⟨.connective op, t, p⟩ :: tokens) := by
  have hreading : (fun ts => tailReading layer left (⟨.connective op, t, p⟩ :: ts)) =
      fun ts => reading layer ts >>= fun r => tailReading layer (.binary op left r.1) r.2 :=
    funext (tailReading_left hop hne left t p)
  intro _
  constructor
  · apply Bounded.cons
    rw [hreading]
    apply h.1.bind (fun right => tailReading layer (.binary op left right)) (Nat.le_succ layer)
    intro right rest hright hstops
    exact (htail right rest (length_lt_of_reading hright) hstops).1
  · rintro u rest ⟨⟩
    rw [hreading]
    apply h.2.bind h.1 (fun right => tailReading layer (.binary op left right)) (Nat.le_succ layer)
    · intro right rest hstops
      exact ⟨_, tailReading_eq_ok hstops _⟩
    · intro right u rest hright hstops
      exact (htail right (u :: rest) (length_lt_of_reading hright) hstops).2 u rest rfl

theorem tailLocated_stop {layer : Nat} {left : Formula} {tokens : List Token}
    (h : ∀ op, (peek tokens).kind = .connective op → op.layer ≠ layer + 1) :
    TailLocated layer left tokens := by
  intro hstops
  have hnext : Stops (layer + 1) tokens := by
    intro op hop
    have hlt := hstops op hop
    have hne := h op hop
    omega
  constructor
  · exact bounded_of_ok [] hnext fun rest' hrest' _ => tailReading_eq_ok hrest' left
  · rintro t rest rfl
    exact located_of_ok (tailReading_eq_ok hnext left)

theorem layerLocated (layer : Nat) (tokens : List Token) : LayerLocated layer tokens := by
  induction layer, tokens using reading_induct (Q := TailLocated) with
  | succ layer tokens h htail => exact layerLocated_succ h htail
  | bang t p tokens h => exact layerLocated_bang h
  | truth v t p tokens =>
    exact layerLocated_of_ok [⟨.truth v, t, p⟩] fun rest _ => reading_truth v t p rest
  | next x t u p q r s tokens =>
    exact layerLocated_of_ok
      [⟨.name, "next", p⟩, ⟨.lparen, t, q⟩, ⟨.name, x, r⟩, ⟨.rparen, u, s⟩]
      fun rest _ => reading_next x t u p q r s rest
  | unclosed x t p q r tokens h => exact layerLocated_unclosed h
  | unnamed t p q tokens h => exact layerLocated_unnamed h
  | ident x p tokens hx =>
    apply layerLocated_of_ok [⟨.name, x, p⟩]
    intro rest hrest
    exact reading_ident (fun hnext hparen => hx hnext (hrest hparen)) p
  | parens t p tokens h => exact ⟨bounded_parens h.1, located_parens h.1 h.2⟩
  | unexpected tokens h => exact layerLocated_unexpected h
  | right layer left t p tokens himp h => exact tailLocated_right himp h
  | left layer left op t p tokens hop hne h htail => exact tailLocated_left hop hne h htail
  | stop layer left tokens h => exact tailLocated_stop h

theorem parseTokens_eq_error {tokens : List Token} {fault : Fault}
    (h : parseTokens tokens = .error fault) :
    reading 5 tokens = .error fault ∨ ∃ f rest, reading 5 tokens = .ok (f, rest) ∧
      (peek rest).kind ≠ .finish ∧ fault.1 = (peek rest).pos := by
  unfold parseTokens at h
  unfold reading
  cases hlayer : parseLayer 5 tokens with
  | error e =>
    rw [hlayer] at h
    cases h
    exact .inl rfl
  | ok r =>
    obtain ⟨f, rest, hlt⟩ := r
    rw [hlayer, Attempt.ok_bind] at h
    refine .inr ⟨f, rest, rfl, ?_⟩
    cases hkind : (peek rest).kind <;> simp only [hkind] at h <;> cases h <;> simp

/-- No formula starts with the tokens before a fault and the token at it, and the tokens before it can
be completed. -/
theorem exists_first_fault {tokens : List Token} {fault : Fault}
    (h : parseTokens tokens = .error fault) :
    ∃ before after, tokens = before ++ after ∧ fault.1 = (peek after).pos ∧
      (∀ more, peek more = peek after → ∀ f, parseTokens (before ++ more) ≠ .ok f) ∧
      ∃ more, (∀ u ∈ more, u = operand ∨ u = closer) ∧
        ∃ f, Generates (before ++ more ++ [⟨.finish, "", 0⟩]) f := by
  have hstops : Stops 5 [⟨.finish, "", 0⟩] := by
    intro op hop
    cases hop
  have hparen : (peek [⟨.finish, "", 0⟩]).kind ≠ .lparen := by simp [peek]
  have hgenerates : ∀ ts f, reading 5 ts = .ok (f, [⟨.finish, "", 0⟩]) → Generates ts f :=
    fun ts f hread => ⟨_, rfl, layerSound 5 ts (.chain .iff) rfl (by simp) f _ hread⟩
  obtain ⟨hbounded, hlocated⟩ := layerLocated 5 tokens
  rcases parseTokens_eq_error h with hread | ⟨f, rest, hread, hkind, hpos⟩
  · obtain ⟨before, after, rfl, hpos, hstuck, more, hmore, hcompleted⟩ := hlocated fault hread
    obtain ⟨f, hf⟩ := hcompleted _ hstops hparen
    refine ⟨before, after, rfl, hpos, ?_, more, hmore, f, hgenerates _ f hf⟩
    intro more hpeek f hparse
    obtain ⟨rest, hok, -⟩ := parseTokens_eq_ok_iff.mp hparse
    obtain ⟨e, herror⟩ := hstuck more hpeek
    rw [herror] at hok
    cases hok
  · obtain ⟨hrest, used, rfl, hused⟩ := hbounded f rest hread
    refine ⟨used, rest, rfl, hpos, ?_, [], by simp, f, ?_⟩
    · intro more hpeek g hparse
      obtain ⟨rest', hok, hfinish⟩ := parseTokens_eq_ok_iff.mp hparse
      rw [hused more (hrest.of_peek hpeek) (by rw [hpeek]; exact id)] at hok
      cases hok
      rw [hpeek] at hfinish
      exact hkind hfinish
    · rw [List.append_nil]
      exact hgenerates _ f (hused _ hstops fun h => absurd h hparen)

def spaced (tokens : List Token) : List Char := tokens.flatMap fun t => ' ' :: t.text.toList

theorem apart_spaced (tokens : List Token) : Token.Apart (spaced tokens) := by
  cases tokens with
  | nil =>
    intro d hd
    cases hd
  | cons t tokens =>
    intro d hd
    obtain rfl : ' ' = d := Option.some.inj hd
    decide

theorem begins_spaced {tokens : List Token} (h : ∀ u ∈ tokens, u = operand ∨ u = closer) :
    Token.Begins (Token.Moved (tokens ++ [⟨.finish, "", 0⟩])) (spaced tokens) := by
  induction tokens with
  | nil =>
    apply Token.begins_nil.mono
    rintro us ⟨pos, rfl⟩
    exact .cons .nil
  | cons t tokens ih =>
    rw [List.forall_mem_cons] at h
    have hrest := ih h.2
    rcases h.1 with rfl | rfl
    · have hname : Token.isIdentifier "x" = true := by decide +kernel
      apply (hrest.identifier hname (apart_spaced tokens).delimited).blank.mono
      rintro us ⟨pos, more, rfl, hmore⟩
      exact .cons hmore
    · apply hrest.rparen.blank.mono
      rintro us ⟨pos, more, rfl, hmore⟩
      exact .cons hmore

theorem parse_eq_error {input : String} {e : SyntaxError} (h : parse input = .error e) :
    (Token.scan 0 input.toList >>= parseTokens) = .error (e.pos, e.fault) := by
  unfold parse at h
  split at h
  · cases h
  · next hfault =>
    cases h
    exact hfault

/-- Only the last token of a text is an end marker, so there is a token at the fault. -/
theorem ne_nil_of_generates {before after more : List Token} {f : Formula} {pos : Nat}
    {cs : List Char} (hscan : Token.scan pos cs = .ok (before ++ after))
    (h : Generates (before ++ more) f) (hmore : more ≠ []) : after ≠ [] := by
  rintro rfl
  obtain ⟨body, last, hbefore, hlast, -⟩ := Token.exists_lexemes hscan
  obtain ⟨last', -, hderives⟩ := h
  obtain ⟨phrase, htokens, hphrase⟩ := hderives.exists_phrase
  rw [List.append_nil] at hbefore
  have hmem : last ∈ phrase := by
    have hdrop := congrArg List.dropLast htokens
    rw [List.dropLast_append_of_ne_nil hmore, List.dropLast_concat, hbefore] at hdrop
    rw [← hdrop]
    simp
  exact hphrase last hmem hlast

theorem exists_faulty_token {cs : List Char} {tokens : List Token} {fault : Fault}
    (hscan : Token.scan 0 cs = .ok tokens) (h : parseTokens tokens = .error fault) :
    ∃ before t after, tokens = before ++ t :: after ∧ fault.1 = t.pos ∧
      (∃ rest more f, Token.scan 0 (cs.take fault.1 ++ rest) = .ok (before ++ more) ∧
        parseTokens (before ++ more) = .ok f) ∧
      ∀ us more f, Token.Moved (before ++ [t]) us → parseTokens (us ++ more) ≠ .ok f := by
  obtain ⟨before, after, rfl, hpos, hstuck, more, hmore, f, hgenerates⟩ := exists_first_fault h
  rw [List.append_assoc] at hgenerates
  have hafter := ne_nil_of_generates hscan hgenerates (by simp)
  cases after with
  | nil => exact absurd rfl hafter
  | cons t after =>
    refine ⟨before, t, after, rfl, hpos, ?_, ?_⟩
    · obtain ⟨front, rest, rfl, htpos, hreads⟩ := Token.exists_cut hscan
      obtain ⟨us, hus, hmoved⟩ := begins_spaced hmore (0 + front.length)
      have hfront : (front ++ rest).take fault.1 = front := by
        have hlength : fault.1 = front.length := by
          rw [hpos, ← Nat.zero_add front.length]
          exact htpos
        rw [hlength, List.take_left]
      have hwhole : Token.scan 0 (front ++ spaced more) = .ok (before ++ us) := by
        rw [hreads _ (apart_spaced more), hus, Attempt.ok_bind]
      refine ⟨spaced more, us, f, ?_, ?_⟩
      · rw [hfront, hwhole]
      · rw [parseTokens_scan hwhole]
        exact hgenerates.moved ((Token.Moved.refl before).append hmoved)
    · intro us more f hmoved hparse
      have hback := hmoved.symm.append (Token.Moved.refl more)
      rw [List.append_assoc] at hback
      exact hstuck (t :: more) rfl f (parseTokens_moved hparse hback)

/-- A refused text is faulty at the position that is named. If it can be scanned, a token stands there;
what comes before that token can be completed to a formula, and no formula starts with the token as
well, however the tokens are spaced. If it cannot be scanned, what comes before the position can be, and
the character there is no blank and starts no token. -/
theorem parse_blames_first_fault {input : String} {e : SyntaxError} (h : parse input = .error e) :
    (∀ tokens, Token.scan 0 input.toList = .ok tokens → ∃ before t after,
      tokens = before ++ t :: after ∧ e.pos = t.pos ∧
      (∃ rest more f, Token.scan 0 (input.toList.take e.pos ++ rest) = .ok (before ++ more) ∧
        parseTokens (before ++ more) = .ok f) ∧
      ∀ us more f, Token.Moved (before ++ [t]) us → parseTokens (us ++ more) ≠ .ok f) ∧
    ∀ fault, Token.scan 0 input.toList = .error fault → ∃ before c rest tokens,
      input.toList = before ++ c :: rest ∧ e.pos = before.length ∧
      Token.scan 0 before = .ok tokens ∧ Text.isBlank c = false ∧
      ∀ text, Token.IsLexeme text → ¬ text <+: c :: rest := by
  have hfault := parse_eq_error h
  constructor
  · intro tokens hscan
    rw [hscan, Attempt.ok_bind] at hfault
    exact exists_faulty_token hscan hfault
  · intro fault hscan
    rw [hscan, Attempt.error_bind] at hfault
    cases hfault
    obtain ⟨before, c, rest, tokens, hinput, hpos, hblank, hnone, hreads⟩ :=
      Token.exists_of_scan_error hscan
    refine ⟨before, c, rest, tokens ++ [⟨.finish, "", before.length⟩], hinput, ?_, ?_, hblank, ?_⟩
    · rw [(Prod.mk.inj hpos).1, Nat.zero_add]
    · have hbefore := hreads [] (by simp [Token.Apart])
      rw [List.append_nil, Token.scan_nil, Nat.zero_add] at hbefore
      exact hbefore
    · intro text htext
      exact Token.not_prefix_of_lexeme_eq_none hnone htext

def unclosed : List Token :=
  [⟨.name, "next", 0⟩, ⟨.lparen, "(", 4⟩, ⟨.name, "a", 5⟩, ⟨.connective .and, "&", 7⟩,
    ⟨.name, "b", 9⟩, ⟨.rparen, ")", 10⟩, ⟨.finish, "", 11⟩]

theorem scan_unclosed : Token.scan 0 "next(a & b)".toList = .ok unclosed := by decide +kernel

theorem parse_unclosed :
    parse "next(a & b)" = .error ⟨"next(a & b)", 7, .expectedClosing "&"⟩ := by
  have htokens : parseTokens unclosed = .error (7, .expectedClosing "&") := by cbv
  unfold parse
  rw [scan_unclosed, Attempt.ok_bind, htokens]

/-- At `&` the text `next(a & b)` is refused: up to there it can be completed, with `&` it cannot. At `<`
the text `a <-) b` is refused, since no token starts there. -/
theorem parse_blames_first_fault_unclosed :
    (∃ before t after, unclosed = before ++ t :: after ∧ 7 = t.pos ∧
      (∃ rest more f, Token.scan 0 ("next(a & b)".toList.take 7 ++ rest) = .ok (before ++ more) ∧
        parseTokens (before ++ more) = .ok f) ∧
      ∀ us more f, Token.Moved (before ++ [t]) us → parseTokens (us ++ more) ≠ .ok f) ∧
    ∃ before c rest tokens, "a <-) b".toList = before ++ c :: rest ∧ 2 = before.length ∧
      Token.scan 0 before = .ok tokens ∧ Text.isBlank c = false ∧
      ∀ text, Token.IsLexeme text → ¬ text <+: c :: rest := by
  have hbad : parse "a <-) b" = .error ⟨"a <-) b", 2, .badCharacter '<'⟩ := by decide +kernel
  have hscan : Token.scan 0 "a <-) b".toList = .error (2, .badCharacter '<') := by decide +kernel
  exact ⟨(parse_blames_first_fault parse_unclosed).1 unclosed scan_unclosed,
    (parse_blames_first_fault hbad).2 _ hscan⟩

end Formula
end SymbolicLtl
