import Mathlib.Tactic.Common
import SymbolicLtl.Formula.Parser
import SymbolicLtl.Proofs.Attempt

/-!
What the scanner makes of a text. Every token is a lexeme, the names are identifiers, and a text that is
taken apart from its front has the tokens of its parts.
-/
namespace SymbolicLtl.Token

theorem scan_nil (pos : Nat) : scan pos [] = .ok [⟨.finish, "", pos⟩] := by
  unfold scan
  rfl

/-- A character that starts a token is followed by the tokens behind it. -/
theorem scan_cons {pos more : Nat} {c : Char} {rest : List Char} {kind : TokenKind}
    (hblank : Text.isBlank c = false) (hlexeme : lexeme c rest = some (kind, more)) :
    scan pos (c :: rest) = scan (pos + 1 + more) (rest.drop more) >>= fun tokens =>
      .ok (⟨kind, String.ofList (c :: rest.take more), pos⟩ :: tokens) := by
  conv_lhs => unfold scan
  rw [if_neg (by simp [hblank]), hlexeme]
  rfl

theorem scan_blank {pos : Nat} {c : Char} {rest : List Char} (h : Text.isBlank c = true) :
    scan pos (c :: rest) = scan (pos + 1) rest := by
  conv_lhs => unfold scan
  rw [if_pos h]

theorem scan_error {pos : Nat} {c : Char} {rest : List Char} (hblank : Text.isBlank c = false)
    (hnone : lexeme c rest = none) : scan pos (c :: rest) = .error (pos, .badCharacter c) := by
  conv_lhs => unfold scan
  rw [if_neg (by simp [hblank]), hnone]

theorem lexeme_ne_finish {c : Char} {rest : List Char} {kind : TokenKind} {more : Nat}
    (h : lexeme c rest = some (kind, more)) : kind ≠ .finish := by
  rintro rfl
  unfold lexeme at h
  split at h
  · have hword : wordKind (String.ofList (c :: rest.takeWhile isNameChar)) = .finish :=
      (Prod.mk.inj (Option.some.inj h)).1
    unfold wordKind at hword
    split_ifs at hword
  · split at h <;> cases h

/-- Every token is a lexeme, up to the end marker. -/
theorem exists_lexemes {pos : Nat} {cs : List Char} {tokens : List Token}
    (h : scan pos cs = .ok tokens) :
    ∃ (body : List Token) (last : Token), tokens = body ++ [last] ∧ last.kind = .finish ∧
      ∀ t ∈ body, ∃ c rest more, lexeme c rest = some (t.kind, more) ∧
        t.text = String.ofList (c :: rest.take more) := by
  induction pos, cs using scan.induct generalizing tokens with
  | case1 pos =>
    rw [scan_nil] at h
    cases h
    exact ⟨[], _, rfl, rfl, by simp⟩
  | case2 pos c rest hblank ih =>
    rw [scan_blank hblank] at h
    exact ih h
  | case3 pos c rest hblank hlexeme =>
    rw [scan_error (by simpa using hblank) hlexeme] at h
    cases h
  | case4 pos c rest hblank kind more hlexeme ih =>
    rw [scan_cons (by simpa using hblank) hlexeme] at h
    obtain ⟨tokens', htokens', h⟩ := Attempt.bind_eq_ok.mp h
    cases h
    obtain ⟨body, last, rfl, hlast, hbody⟩ := ih htokens'
    refine ⟨_ :: body, last, rfl, hlast, List.forall_mem_cons.mpr ⟨?_, hbody⟩⟩
    exact ⟨c, rest, more, hlexeme, rfl⟩

/-- A name of a variable: a letter or an underscore, then characters of names, and not a constant. -/
def isIdentifier (text : String) : Bool :=
  match text.toList with
  | [] => false
  | c :: cs =>
    isNameStart c && cs.all isNameChar && ["TRUE", "true", "FALSE", "false"].all (text != ·)

theorem wordKind_eq_name {text : String} :
    wordKind text = .name ↔ ["TRUE", "true", "FALSE", "false"].all (text != ·) = true := by
  unfold wordKind
  split_ifs with htrue hfalse
  · rcases htrue with rfl | rfl <;> decide
  · rcases hfalse with rfl | rfl <;> decide
  · simp only [not_or] at htrue hfalse
    simp [htrue, hfalse]

theorem isIdentifier_ofList {c : Char} {cs : List Char} :
    isIdentifier (String.ofList (c :: cs)) = true ↔
      isNameStart c = true ∧ (∀ d ∈ cs, isNameChar d = true) ∧
        wordKind (String.ofList (c :: cs)) = .name := by
  unfold isIdentifier
  rw [String.toList_ofList, wordKind_eq_name]
  rw [Bool.and_eq_true, Bool.and_eq_true, List.all_eq_true, and_assoc]

theorem exists_of_isIdentifier {text : String} (h : isIdentifier text = true) :
    ∃ c cs, text = String.ofList (c :: cs) := by
  cases htext : text.toList with
  | nil =>
    unfold isIdentifier at h
    rw [htext] at h
    cases h
  | cons c cs =>
    refine ⟨c, cs, ?_⟩
    rw [← htext, String.ofList_toList]

def blankRanges : List (Nat × Nat) :=
  [(9, 13), (0x20, 0x20), (0x85, 0x85), (0xa0, 0xa0), (0x1680, 0x1680), (0x2000, 0x200a),
    (0x2028, 0x2029), (0x202f, 0x202f), (0x205f, 0x205f), (0x3000, 0x3000)]

theorem exists_blankRange {c : Char} (h : Text.isBlank c = true) :
    ∃ r ∈ blankRanges, r.1 ≤ c.toNat ∧ c.toNat ≤ r.2 := by
  simp only [Text.isBlank, Bool.or_eq_true, Bool.and_eq_true, decide_eq_true_eq, beq_iff_eq] at h
  simp only [blankRanges, List.exists_mem_cons_iff, List.not_mem_nil, false_and, exists_false,
    or_false]
  omega

/-- No character of ranges that are apart from those of blank space is blank. -/
theorem isBlank_of_inRanges {ranges : List (Nat × Nat)}
    (hapart : ∀ l ∈ ranges, ∀ r ∈ blankRanges, l.2 < r.1 ∨ r.2 < l.1) {c : Char}
    (h : Text.inRanges ranges c = true) : Text.isBlank c = false := by
  rw [Bool.eq_false_iff]
  intro hblank
  obtain ⟨r, hr, hlow, hhigh⟩ := exists_blankRange hblank
  obtain ⟨l, hl, hin⟩ := List.any_eq_true.mp h
  rw [Bool.and_eq_true, decide_eq_true_eq, decide_eq_true_eq] at hin
  have hdisjoint := hapart l hl r hr
  omega

theorem isBlank_of_isNameChar {c : Char} (h : isNameChar c = true) : Text.isBlank c = false := by
  unfold isNameChar at h
  simp only [Bool.or_eq_true, beq_iff_eq] at h
  rcases h with ((rfl | rfl) | hletter) | hdigit
  · decide
  · decide
  · exact isBlank_of_inRanges (by decide +kernel) hletter
  · exact isBlank_of_inRanges (by decide +kernel) hdigit

theorem isNameChar_of_isNameStart {c : Char} (h : isNameStart c = true) : isNameChar c = true := by
  unfold isNameStart at h
  unfold isNameChar
  simp only [Bool.or_eq_true] at h ⊢
  tauto

theorem isBlank_of_isNameStart {c : Char} (h : isNameStart c = true) : Text.isBlank c = false :=
  isBlank_of_isNameChar (isNameChar_of_isNameStart h)

/-- A name cannot go on into the text. -/
def Delimited (cs : List Char) : Prop := ∀ d ∈ cs.head?, isNameChar d = false

theorem takeWhile_of_delimited {rest : List Char} (h : Delimited rest) :
    rest.takeWhile isNameChar = [] := by
  cases rest with
  | nil => rfl
  | cons d rest => exact List.takeWhile_cons_of_neg (by simp [h d rfl])

/-- A word does not go on into what follows a text, unless all of the text belongs to it. -/
theorem takeWhile_append_of_delimited {l rest : List Char}
    (h : (∀ d ∈ l, isNameChar d = true) → Delimited rest) :
    (l ++ rest).takeWhile isNameChar = l.takeWhile isNameChar := by
  rw [List.takeWhile_append]
  split_ifs with hwhole
  · have hself : l.takeWhile isNameChar = l :=
      (List.takeWhile_prefix isNameChar).eq_of_length hwhole
    have hl : ∀ d ∈ l, isNameChar d = true := by
      rw [← hself]
      exact List.all_eq_true.mp List.all_takeWhile
    rw [takeWhile_of_delimited (h hl), hself, List.append_nil]
  · rfl

theorem take_length_takeWhile (rest : List Char) :
    rest.take (rest.takeWhile isNameChar).length = rest.takeWhile isNameChar :=
  (List.prefix_iff_eq_take.mp (List.takeWhile_prefix isNameChar)).symm

/-- A word ends where no name can go on. -/
theorem lexeme_word {c : Char} {cs rest : List Char} (hstart : isNameStart c = true)
    (hcs : ∀ d ∈ cs, isNameChar d = true) (hrest : Delimited rest) :
    lexeme c (cs ++ rest) = some (wordKind (String.ofList (c :: cs)), cs.length) := by
  unfold lexeme
  rw [if_pos hstart, List.takeWhile_append_of_pos hcs, takeWhile_of_delimited hrest,
    List.append_nil]

theorem isIdentifier_of_lexeme {c : Char} {rest : List Char} {more : Nat}
    (h : lexeme c rest = some (.name, more)) :
    isIdentifier (String.ofList (c :: rest.take more)) = true := by
  unfold lexeme at h
  split at h
  · next hstart =>
    obtain ⟨hword, rfl⟩ := Prod.mk.inj (Option.some.inj h)
    rw [take_length_takeWhile, isIdentifier_ofList]
    refine ⟨hstart, ?_, hword⟩
    intro d hd
    exact List.all_eq_true.mp List.all_takeWhile d hd
  · split at h <;> cases h

/-- The tokens of a text, from whatever position on, have a property. -/
def Begins (P : List Token → Prop) (cs : List Char) : Prop :=
  ∀ pos, ∃ tokens, scan pos cs = .ok tokens ∧ P tokens

def Front (kind : TokenKind) (text : String) (P : List Token → Prop) (tokens : List Token) : Prop :=
  ∃ pos more, tokens = ⟨kind, text, pos⟩ :: more ∧ P more

theorem begins_nil : Begins (fun tokens => ∃ pos, tokens = [⟨.finish, "", pos⟩]) [] :=
  fun pos => ⟨_, scan_nil pos, pos, rfl⟩

namespace Begins

variable {P : List Token → Prop} {rest : List Char}

theorem mono {Q : List Token → Prop} (h : Begins P rest) (himp : ∀ tokens, P tokens → Q tokens) :
    Begins Q rest := by
  intro pos
  obtain ⟨tokens, hscan, htokens⟩ := h pos
  exact ⟨tokens, hscan, himp tokens htokens⟩

theorem blank (h : Begins P rest) : Begins P (' ' :: rest) := by
  intro pos
  obtain ⟨tokens, hscan, htokens⟩ := h (pos + 1)
  have hspace : Text.isBlank ' ' = true := by decide
  rw [← scan_blank hspace] at hscan
  exact ⟨tokens, hscan, htokens⟩

theorem lexeme (c : Char) (cs : List Char) {kind : TokenKind} (hblank : Text.isBlank c = false)
    (hlexeme : Token.lexeme c (cs ++ rest) = some (kind, cs.length)) (h : Begins P rest) :
    Begins (Front kind (String.ofList (c :: cs)) P) (c :: cs ++ rest) := by
  intro pos
  obtain ⟨tokens, hscan, htokens⟩ := h (pos + 1 + cs.length)
  refine ⟨_, ?_, pos, tokens, rfl, htokens⟩
  rw [List.cons_append, scan_cons hblank hlexeme, List.drop_left, hscan, List.take_left]
  rfl

theorem word {c : Char} {cs : List Char} (hstart : isNameStart c = true)
    (hcs : ∀ d ∈ cs, isNameChar d = true) (hrest : Delimited rest) (h : Begins P rest) :
    Begins (Front (wordKind (String.ofList (c :: cs))) (String.ofList (c :: cs)) P)
      (c :: cs ++ rest) :=
  h.lexeme c cs (isBlank_of_isNameStart hstart) (lexeme_word hstart hcs hrest)

theorem identifier {x : String} (hx : isIdentifier x = true) (hrest : Delimited rest)
    (h : Begins P rest) : Begins (Front .name x P) (x.toList ++ rest) := by
  obtain ⟨c, cs, rfl⟩ := exists_of_isIdentifier hx
  obtain ⟨hstart, hcs, hkind⟩ := isIdentifier_ofList.mp hx
  rw [String.toList_ofList, ← hkind]
  exact h.word hstart hcs hrest

theorem sign (op : Connective) (h : Begins P rest) :
    Begins (Front (.connective op) op.sign P) (op.sign.toList ++ ' ' :: rest) := by
  have hnone : ∀ c ∈ ['&', '|', '^', '-', '<'], ¬ isNameStart c = true ∧ Text.isBlank c = false := by
    have hall : ['&', '|', '^', '-', '<'].all (fun c => !isNameStart c && !Text.isBlank c) = true := by
      decide +kernel
    simpa using hall
  cases op with
  | and =>
    obtain ⟨hstart, hblank⟩ := hnone '&' (by simp)
    exact h.blank.lexeme '&' [] hblank (if_neg hstart)
  | xor =>
    obtain ⟨hstart, hblank⟩ := hnone '^' (by simp)
    exact h.blank.lexeme '^' [] hblank (if_neg hstart)
  | or =>
    obtain ⟨hstart, hblank⟩ := hnone '|' (by simp)
    exact h.blank.lexeme '|' [] hblank (if_neg hstart)
  | imp =>
    obtain ⟨hstart, hblank⟩ := hnone '-' (by simp)
    exact h.blank.lexeme '-' ['>'] hblank (if_neg hstart)
  | iff =>
    obtain ⟨hstart, hblank⟩ := hnone '<' (by simp)
    exact h.blank.lexeme '<' ['-', '>'] hblank (if_neg hstart)

theorem bang (h : Begins P rest) : Begins (Front .bang "!" P) ('!' :: rest) := by
  have hstart : ¬ isNameStart '!' = true := by decide +kernel
  exact h.lexeme '!' [] (by decide) (if_neg hstart)

theorem lparen (h : Begins P rest) : Begins (Front .lparen "(" P) ('(' :: rest) := by
  have hstart : ¬ isNameStart '(' = true := by decide +kernel
  exact h.lexeme '(' [] (by decide) (if_neg hstart)

theorem rparen (h : Begins P rest) : Begins (Front .rparen ")" P) (')' :: rest) := by
  have hstart : ¬ isNameStart ')' = true := by decide +kernel
  exact h.lexeme ')' [] (by decide) (if_neg hstart)

end Begins

theorem delimited_cons {d : Char} (h : d ∈ [' ', '(', ')']) (rest : List Char) :
    Delimited (d :: rest) := by
  have hnone : [' ', '(', ')'].all (fun d => !isNameChar d) = true := by decide +kernel
  intro e he
  obtain rfl : d = e := Option.some.inj he
  simpa using List.all_eq_true.mp hnone d h

end SymbolicLtl.Token
