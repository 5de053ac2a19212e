import Mathlib.Data.List.Find
import SymbolicLtl.Proofs.Formula.Scanning

/-!
Where one token ends and the next one may start. A token is a word or a sign, and both can be told from
the characters up to the next blank. So a text that is cut between two tokens keeps the tokens before
the cut, and the scanner fails only where the text does not start with a token.
-/
namespace SymbolicLtl.Token

/-- The tokens that are no words; a sign that another one starts with comes behind it. -/
def signs : List (List Char × TokenKind) :=
  [(['1'], .truth true), (['0'], .truth false), (['!'], .bang), (['&', '&'], .connective .and),
    (['&'], .connective .and), (['|', '|'], .connective .or), (['|'], .connective .or),
    (['^'], .connective .xor), (['-', '>'], .connective .imp), (['<', '-', '>'], .connective .iff),
    (['('], .lparen), ([')'], .rparen)]

def sign? (cs : List Char) : Option (List Char × TokenKind) := signs.find? (·.1 <+: cs)

/-- The text of a token: a letter or an underscore with characters of names, or a sign. -/
def IsLexeme (cs : List Char) : Prop :=
  (∃ c word, cs = c :: word ∧ isNameStart c = true ∧ ∀ d ∈ word, isNameChar d = true) ∨
    ∃ s ∈ signs, cs = s.1

theorem sign?_eq_none_iff {cs : List Char} : sign? cs = none ↔ ∀ s ∈ signs, ¬ s.1 <+: cs := by
  simp [sign?]

/-- Where no word starts, the lexeme is the first sign that the text starts with. -/
theorem lexeme_eq_sign {c : Char} {rest : List Char} (h : isNameStart c = false) :
    lexeme c rest = (sign? (c :: rest)).map fun s => (s.2, s.1.length - 1) := by
  have hnot : ∀ d, (∀ tail, rest = d :: tail → False) → ¬ [d] <+: rest := by
    intro d hd hprefix
    obtain ⟨tail, hrest, -⟩ := List.cons_prefix_iff.mp hprefix
    exact hd tail hrest
  unfold lexeme
  rw [if_neg (by simp [h])]
  split
  case h_5 hsingle => simp [sign?, signs, hnot '&' hsingle]
  case h_7 hsingle => simp [sign?, signs, hnot '|' hsingle]
  case h_13 =>
    have hnone : sign? (c :: rest) = none := by
      rw [sign?_eq_none_iff]
      intro s hs hstart
      obtain ⟨tail, hcs⟩ := hstart
      simp only [signs, List.mem_cons, List.not_mem_nil, or_false] at hs
      rcases hs with rfl | rfl | rfl | rfl | rfl | rfl | rfl | rfl | rfl | rfl | rfl | rfl <;>
        cases hcs <;> simp_all
    rw [hnone]
    rfl
  all_goals simp [sign?, signs]

theorem sign?_eq_some_of_append {l rest : List Char} {s : List Char × TokenKind}
    (h : sign? (l ++ rest) = some s) (hle : s.1.length ≤ l.length) : sign? l = some s := by
  unfold sign? at h ⊢
  rw [List.find?_eq_some_iff_append] at h ⊢
  obtain ⟨hs, first, others, hsigns, hfirst⟩ := h
  rw [decide_eq_true_eq] at hs
  have hprefix : s.1 <+: l := List.prefix_of_prefix_length_le hs (List.prefix_append l rest) hle
  refine ⟨by simpa using hprefix, first, others, hsigns, ?_⟩
  intro u hu
  have hnot := hfirst u hu
  simp only [Bool.not_eq_true', decide_eq_false_iff_not] at hnot ⊢
  exact fun hstart => hnot (hstart.trans (List.prefix_append l rest))

/-- Where there is no lexeme, no token can start. -/
theorem not_prefix_of_lexeme_eq_none {c : Char} {rest cs : List Char} (h : lexeme c rest = none)
    (hcs : IsLexeme cs) : ¬ cs <+: c :: rest := by
  have hstart : isNameStart c = false := by
    by_contra hname
    unfold lexeme at h
    rw [if_pos (by simpa using hname)] at h
    cases h
  rw [lexeme_eq_sign hstart, Option.map_eq_none_iff, sign?_eq_none_iff] at h
  rcases hcs with ⟨d, word, rfl, hd, -⟩ | ⟨s, hs, rfl⟩
  · intro hprefix
    obtain ⟨rfl, -⟩ := List.cons_prefix_cons.mp hprefix
    rw [hstart] at hd
    cases hd
  · exact h s hs

/-- The text is empty, or a blank comes first. -/
def Apart (cs : List Char) : Prop := ∀ d ∈ cs.head?, Text.isBlank d = true

theorem Apart.delimited {cs : List Char} (h : Apart cs) : Delimited cs := by
  intro d hd
  by_contra hname
  have hblank := h d hd
  rw [isBlank_of_isNameChar (by simpa using hname)] at hblank
  cases hblank

theorem isBlank_of_mem_sign : ∀ s ∈ signs, ∀ d ∈ s.1, Text.isBlank d = false := by
  have hall : signs.all (fun s => s.1.all fun d => !Text.isBlank d) = true := by decide
  simpa using hall

theorem sign?_append {l rest : List Char} (hrest : Apart rest) : sign? (l ++ rest) = sign? l := by
  unfold sign?
  apply List.find?_congr
  intro s hs
  rw [decide_eq_decide]
  constructor
  · intro hprefix
    rcases List.prefix_or_prefix_of_prefix hprefix (List.prefix_append l rest) with h | ⟨more, hmore⟩
    · exact h
    · rw [← hmore, List.prefix_append_right_inj] at hprefix
      cases more with
      | nil =>
        rw [List.append_nil] at hmore
        exact hmore ▸ List.prefix_rfl
      | cons d more =>
        obtain ⟨tail, rfl⟩ := hprefix
        have hblank := hrest d rfl
        rw [isBlank_of_mem_sign s hs d (by simp [← hmore])] at hblank
        cases hblank
  · intro hprefix
    exact hprefix.trans (List.prefix_append l rest)

theorem le_length_of_lexeme {c : Char} {l : List Char} {kind : TokenKind} {more : Nat}
    (h : lexeme c l = some (kind, more)) : more ≤ l.length := by
  unfold lexeme at h
  split at h
  · cases h
    exact (List.takeWhile_prefix _).length_le
  · split at h <;> cases h <;> simp

theorem length_of_lexeme {c : Char} {l cs : List Char} {kind : TokenKind} {more : Nat}
    (h : lexeme c l = some (kind, more)) :
    (c :: (l.take more ++ cs)).length = 1 + more + cs.length := by
  rw [List.length_cons, List.length_append, List.length_take,
    Nat.min_eq_left (le_length_of_lexeme h)]
  omega

theorem lexeme_append {c : Char} {l rest : List Char} (hrest : Apart rest) :
    lexeme c (l ++ rest) = lexeme c l := by
  cases hstart : isNameStart c with
  | false => rw [lexeme_eq_sign hstart, lexeme_eq_sign hstart, ← List.cons_append, sign?_append hrest]
  | true =>
    unfold lexeme
    rw [if_pos hstart, if_pos hstart, takeWhile_append_of_delimited fun _ => hrest.delimited]

/-- What is behind a lexeme does not matter for it. -/
theorem lexeme_of_append {c : Char} {l rest : List Char} {kind : TokenKind} {more : Nat}
    (h : lexeme c (l ++ rest) = some (kind, more)) (hle : more ≤ l.length) :
    lexeme c l = some (kind, more) := by
  cases hstart : isNameStart c with
  | false =>
    rw [lexeme_eq_sign hstart, Option.map_eq_some_iff] at h ⊢
    obtain ⟨s, hs, hkind⟩ := h
    refine ⟨s, sign?_eq_some_of_append hs ?_, hkind⟩
    have hmore : s.1.length - 1 = more := congrArg Prod.snd hkind
    rw [List.length_cons]
    omega
  | true =>
    unfold lexeme at h ⊢
    rw [if_pos hstart] at h ⊢
    obtain ⟨-, hmore⟩ := Prod.mk.inj (Option.some.inj h)
    have htake : (l ++ rest).takeWhile isNameChar = l.takeWhile isNameChar := by
      rw [List.takeWhile_append] at hmore ⊢
      split_ifs at hmore ⊢ with hwhole
      · rw [List.length_append] at hmore
        have hnil : rest.takeWhile isNameChar = [] := List.eq_nil_of_length_eq_zero (by omega)
        rw [hnil, List.append_nil, (List.takeWhile_prefix isNameChar).eq_of_length hwhole]
      · rfl
    rw [← htake]
    exact h

theorem eq_take_append {l cs after : List Char} {more : Nat} (h : l.drop more = cs ++ after) :
    l = l.take more ++ cs ++ after := by
  rw [List.append_assoc, ← h, List.take_append_drop]

/-- The text has these tokens, wherever it is cut off behind a blank or goes on with one. -/
def Reads (pos : Nat) (cs : List Char) (tokens : List Token) : Prop :=
  ∀ rest, Apart rest → scan pos (cs ++ rest) =
    scan (pos + cs.length) rest >>= fun more => .ok (tokens ++ more)

namespace Reads

variable {pos : Nat} {c : Char} {cs : List Char} {tokens : List Token}

theorem nil (pos : Nat) : Reads pos [] [] := by
  intro rest _
  rw [List.nil_append, List.length_nil, Nat.add_zero]
  cases scan pos rest <;> rfl

theorem blank (hblank : Text.isBlank c = true) (h : Reads (pos + 1) cs tokens) :
    Reads pos (c :: cs) tokens := by
  intro rest hrest
  rw [List.cons_append, scan_blank hblank, h rest hrest, List.length_cons, Nat.add_right_comm,
    Nat.add_assoc]

theorem lexeme {kind : TokenKind} {more : Nat} {rest after : List Char}
    (hblank : Text.isBlank c = false) (hlexeme : Token.lexeme c rest = some (kind, more))
    (hrest : rest.drop more = cs ++ after) (h : Reads (pos + 1 + more) cs tokens) :
    Reads pos (c :: (rest.take more ++ cs))
      (⟨kind, String.ofList (c :: rest.take more), pos⟩ :: tokens) := by
  intro behind hbehind
  have hlength : (rest.take more).length = more := by
    rw [List.length_take, Nat.min_eq_left (le_length_of_lexeme hlexeme)]
  have hsame : Token.lexeme c (rest.take more ++ cs ++ behind) = some (kind, more) := by
    rw [lexeme_append hbehind]
    rw [eq_take_append hrest] at hlexeme
    exact lexeme_of_append hlexeme (by rw [List.length_append]; omega)
  have hpos : pos + (c :: (rest.take more ++ cs)).length = pos + 1 + more + cs.length := by
    rw [length_of_lexeme hlexeme]
    omega
  rw [List.cons_append, scan_cons hblank hsame, List.append_assoc, List.drop_left' hlength,
    List.take_left' hlength, h behind hbehind, hpos]
  cases scan (pos + 1 + more + cs.length) behind <;> rfl

end Reads

/-- A text can be cut before each of its tokens. -/
theorem exists_cut {pos : Nat} {cs : List Char} {before after : List Token} {t : Token}
    (h : scan pos cs = .ok (before ++ t :: after)) :
    ∃ front rest, cs = front ++ rest ∧ t.pos = pos + front.length ∧ Reads pos front before := by
  induction pos, cs using scan.induct generalizing before with
  | case1 pos =>
    rw [scan_nil] at h
    cases before with
    | nil =>
      cases h
      exact ⟨[], [], rfl, rfl, .nil pos⟩
    | cons u before => cases before <;> cases h
  | case2 pos c rest hblank ih =>
    rw [scan_blank hblank] at h
    obtain ⟨front, tail, rfl, hpos, hreads⟩ := ih h
    refine ⟨c :: front, tail, rfl, ?_, hreads.blank hblank⟩
    rw [hpos, List.length_cons]
    omega
  | case3 pos c rest hblank hnone =>
    rw [scan_error (by simpa using hblank) hnone] at h
    cases h
  | case4 pos c rest hblank kind more hlexeme ih =>
    have hnot : Text.isBlank c = false := by simpa using hblank
    rw [scan_cons hnot hlexeme] at h
    obtain ⟨tokens, htokens, h⟩ := Attempt.bind_eq_ok.mp h
    cases before with
    | nil =>
      cases h
      exact ⟨[], c :: rest, rfl, rfl, .nil pos⟩
    | cons u before =>
      obtain ⟨rfl, rfl⟩ := List.cons.inj (Except.ok.inj h)
      obtain ⟨front, tail, htail, hpos, hreads⟩ := ih htokens
      refine ⟨c :: (rest.take more ++ front), tail, ?_, ?_, hreads.lexeme hnot hlexeme htail⟩
      · exact congrArg (c :: ·) (eq_take_append htail)
      · rw [hpos, length_of_lexeme hlexeme]
        omega

/-- The scanner fails behind complete tokens, at a character that is no blank and starts no token. -/
theorem exists_of_scan_error {pos : Nat} {cs : List Char} {fault : Nat × SyntaxFault}
    (h : scan pos cs = .error fault) :
    ∃ front c rest tokens, cs = front ++ c :: rest ∧
      fault = (pos + front.length, .badCharacter c) ∧ Text.isBlank c = false ∧
      Token.lexeme c rest = none ∧ Reads pos front tokens := by
  induction pos, cs using scan.induct with
  | case1 pos =>
    rw [scan_nil] at h
    cases h
  | case2 pos c rest hblank ih =>
    rw [scan_blank hblank] at h
    obtain ⟨front, d, tail, tokens, rfl, rfl, hd, hnone, hreads⟩ := ih h
    refine ⟨c :: front, d, tail, tokens, rfl, ?_, hd, hnone, hreads.blank hblank⟩
    rw [List.length_cons, Nat.add_right_comm, Nat.add_assoc]
  | case3 pos c rest hblank hnone =>
    have hnot : Text.isBlank c = false := by simpa using hblank
    rw [scan_error hnot hnone] at h
    cases h
    exact ⟨[], c, rest, [], rfl, rfl, hnot, hnone, .nil pos⟩
  | case4 pos c rest hblank kind more hlexeme ih =>
    have hnot : Text.isBlank c = false := by simpa using hblank
    rw [scan_cons hnot hlexeme, Attempt.bind_eq_error] at h
    rcases h with h | ⟨tokens, -, h⟩
    · obtain ⟨front, d, tail, tokens, htail, rfl, hd, hnone, hreads⟩ := ih h
      refine ⟨c :: (rest.take more ++ front), d, tail, _, ?_, ?_, hd, hnone,
        hreads.lexeme hnot hlexeme htail⟩
      · exact congrArg (c :: ·) (eq_take_append htail)
      · rw [length_of_lexeme hlexeme]
        congr 1
        omega
    · cases h

end SymbolicLtl.Token
