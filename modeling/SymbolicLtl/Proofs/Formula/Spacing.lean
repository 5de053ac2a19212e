import SymbolicLtl.Proofs.Formula.Grammar
import SymbolicLtl.Proofs.Formula.Lexemes

/-!
Blank space around a written formula. It moves the tokens, but the formula does not depend on where
they stand.
-/
namespace SymbolicLtl

namespace Token

inductive Moved : List Token → List Token → Prop
  | nil : Moved [] []
  | cons {kind : TokenKind} {text : String} {p q : Nat} {ts us : List Token} :
    Moved ts us → Moved (⟨kind, text, p⟩ :: ts) (⟨kind, text, q⟩ :: us)

theorem Moved.kind_peek {ts us : List Token} (h : Moved ts us) :
    (Formula.peek ts).kind = (Formula.peek us).kind := by
  cases h with
  | nil => rfl
  | cons _ => rfl

theorem Moved.refl (ts : List Token) : Moved ts ts := by
  induction ts with
  | nil => exact .nil
  | cons t ts ih => exact .cons ih

theorem Moved.symm {ts us : List Token} (h : Moved ts us) : Moved us ts := by
  induction h with
  | nil => exact .nil
  | cons _ ih => exact .cons ih

theorem Moved.append {ts us ts' us' : List Token} (h : Moved ts us) (h' : Moved ts' us') :
    Moved (ts ++ ts') (us ++ us') := by
  induction h with
  | nil => exact h'
  | cons _ ih => exact .cons ih

theorem scan_blanks {blanks : List Char} (hblanks : ∀ d ∈ blanks, Text.isBlank d = true)
    (pos : Nat) (rest : List Char) :
    scan pos (blanks ++ rest) = scan (pos + blanks.length) rest := by
  induction blanks generalizing pos with
  | nil => rfl
  | cons c blanks ih =>
    rw [List.forall_mem_cons] at hblanks
    rw [List.cons_append, scan_blank hblanks.1, ih hblanks.2, List.length_cons]
    congr 1
    omega

/-- Blank space behind a text does not change its tokens, wherever the text starts. -/
theorem exists_scan_of_append {blanks : List Char} (hblanks : ∀ d ∈ blanks, Text.isBlank d = true)
    {pos : Nat} {l : List Char} {ts : List Token} (h : scan pos (l ++ blanks) = .ok ts)
    (pos' : Nat) :
    ∃ us, scan pos' l = .ok us ∧ Moved ts us := by
  have hapart : Apart blanks := fun d hd => hblanks d (List.mem_of_mem_head? hd)
  induction pos', l using scan.induct generalizing pos ts with
  | case1 pos' =>
    rw [List.nil_append, ← List.append_nil blanks, scan_blanks hblanks, scan_nil] at h
    cases h
    exact ⟨_, scan_nil pos', .cons .nil⟩
  | case2 pos' c rest hblank ih =>
    rw [List.cons_append, scan_blank hblank] at h
    rw [scan_blank hblank]
    exact ih h
  | case3 pos' c rest hblank hnone =>
    rw [List.cons_append, scan_error (by simpa using hblank) ((lexeme_append hapart).trans hnone)] at h
    cases h
  | case4 pos' c rest hblank kind more hlexeme ih =>
    have hle := le_length_of_lexeme hlexeme
    have hnot : Text.isBlank c = false := by simpa using hblank
    rw [List.cons_append, scan_cons hnot ((lexeme_append hapart).trans hlexeme),
      List.drop_append_of_le_length hle, List.take_append_of_le_length hle] at h
    obtain ⟨ts', hts', h⟩ := Attempt.bind_eq_ok.mp h
    cases h
    obtain ⟨us, hus, hmoved⟩ := ih hts'
    rw [scan_cons hnot hlexeme, hus]
    exact ⟨_, rfl, .cons hmoved⟩

end Token

namespace Formula

open Token (Moved)

/-- A derivation does not look at positions. -/
theorem Derives.moved {n : Phrase} {f : Formula} {tokens rest tokens' : List Token}
    (h : Derives n f tokens rest) (hmoved : Moved tokens tokens') :
    ∃ rest', Moved rest rest' ∧ Derives n f tokens' rest' := by
  induction h generalizing tokens' with
  | truth =>
    cases hmoved with
    | cons hrest => exact ⟨_, hrest, .truth⟩
  | next =>
    obtain _ | ⟨_ | ⟨_ | ⟨_ | hrest⟩⟩⟩ := hmoved
    exact ⟨_, hrest, .next⟩
  | ident hx =>
    cases hmoved with
    | cons hrest => exact ⟨_, hrest, .ident fun h => hrest.kind_peek ▸ hx h⟩
  | parens _ ih =>
    cases hmoved with
    | cons htokens =>
      obtain ⟨_, hclosing, hderives⟩ := ih htokens
      cases hclosing with
      | cons hrest => exact ⟨_, hrest, .parens hderives⟩
  | not _ ih =>
    cases hmoved with
    | cons htokens =>
      obtain ⟨_, hrest, hderives⟩ := ih htokens
      exact ⟨_, hrest, .not hderives⟩
  | atom _ ih =>
    obtain ⟨_, hrest, hderives⟩ := ih hmoved
    exact ⟨_, hrest, .atom hderives⟩
  | single _ ih =>
    obtain ⟨_, hrest, hderives⟩ := ih hmoved
    exact ⟨_, hrest, .single hderives⟩
  | left hop _ _ iha ihb =>
    obtain ⟨_, hmiddle, ha⟩ := iha hmoved
    cases hmiddle with
    | cons hmiddle =>
      obtain ⟨_, hrest, hb⟩ := ihb hmiddle
      exact ⟨_, hrest, .left hop ha hb⟩
  | right _ _ iha ihb =>
    obtain ⟨_, hmiddle, ha⟩ := iha hmoved
    cases hmiddle with
    | cons hmiddle =>
      obtain ⟨_, hrest, hb⟩ := ihb hmiddle
      exact ⟨_, hrest, .right ha hb⟩

theorem parseTokens_moved {tokens tokens' : List Token} {f : Formula}
    (h : parseTokens tokens = .ok f) (hmoved : Moved tokens tokens') :
    parseTokens tokens' = .ok f := by
  rw [parseTokens_eq_ok_iff] at h ⊢
  obtain ⟨rest, hread, hkind⟩ := h
  have hderives := layerSound 5 tokens (.chain .iff) rfl (by simp) f rest hread
  obtain ⟨rest', hrest, hderives'⟩ := hderives.moved hmoved
  rw [hrest.kind_peek] at hkind
  refine ⟨rest', hderives'.reading.1 fun op hop => ?_, hkind⟩
  rw [hkind] at hop
  cases hop

theorem Generates.moved {tokens tokens' : List Token} {f : Formula} (h : Generates tokens f)
    (hmoved : Moved tokens tokens') : Generates tokens' f := by
  obtain ⟨last, hlast, hderives⟩ := h
  obtain ⟨rest', hrest, hderives'⟩ := hderives.moved hmoved
  cases hrest with
  | cons hnil =>
    cases hnil
    refine ⟨_, ?_, hderives'⟩
    exact hlast

/-- A text is read as the formula that it is read as with blank space around it. -/
theorem parse_of_append {before text behind : List Char} {f : Formula}
    (hbefore : ∀ c ∈ before, Text.isBlank c = true) (hbehind : ∀ c ∈ behind, Text.isBlank c = true)
    (h : parse (String.ofList (before ++ text ++ behind)) = .ok f) :
    parse (String.ofList text) = .ok f := by
  rw [parse_eq_ok_iff, String.toList_ofList] at h
  obtain ⟨ts, hscan, hparse⟩ := h
  have hgenerates := (parseTokens_scan hscan).mp hparse
  rw [List.append_assoc, Token.scan_blanks hbefore] at hscan
  obtain ⟨us, hscan', hmoved⟩ := Token.exists_scan_of_append hbehind hscan 0
  rw [parse_eq_ok_iff, String.toList_ofList]
  exact ⟨us, hscan', (parseTokens_scan hscan').mpr (hgenerates.moved hmoved)⟩

theorem parse_nil_ne_ok (f : Formula) : parse (String.ofList []) ≠ .ok f := by
  intro h
  rw [parse_eq_ok_iff, String.toList_ofList] at h
  obtain ⟨ts, hscan, hparse⟩ := h
  obtain ⟨last, -, hreading⟩ := ((parseTokens_scan hscan).mp hparse).reading
  rw [Token.scan_nil] at hscan
  cases hscan
  have hlength := length_lt_of_reading hreading
  simp at hlength

end Formula
end SymbolicLtl
