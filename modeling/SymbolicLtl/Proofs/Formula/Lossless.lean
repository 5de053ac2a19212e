import SymbolicLtl.Proofs.Formula.Lexemes

/-!
What the tokens of a text keep of it. They stand in the text one behind the other, only blanks are left
out between them, and each is the longest lexeme at its position. A text has no other tokens with these
properties.
-/
namespace SymbolicLtl.Token

/-- A text of a token and the kind that it has. A word is a name unless it is reserved. -/
def Spells (kind : TokenKind) (cs : List Char) : Prop :=
  (∃ c word, cs = c :: word ∧ isNameStart c = true ∧ (∀ d ∈ word, isNameChar d = true) ∧
    kind = wordKind (String.ofList cs)) ∨ (cs, kind) ∈ signs

theorem Spells.isLexeme {kind : TokenKind} {cs : List Char} (h : Spells kind cs) : IsLexeme cs := by
  rcases h with ⟨c, word, hcs, hstart, hword, -⟩ | hsign
  · exact .inl ⟨c, word, hcs, hstart, hword⟩
  · exact .inr ⟨_, hsign, rfl⟩

theorem exists_of_mem_signs {s : List Char × TokenKind} (h : s ∈ signs) :
    ∃ c more, s.1 = c :: more ∧ isNameStart c = false := by
  have hall : signs.all (fun s => s.1.head?.any fun c => !isNameStart c) = true := by decide +kernel
  have hs := List.all_eq_true.mp hall s h
  cases hcs : s.1 with
  | nil => simp [hcs] at hs
  | cons c more => exact ⟨c, more, rfl, by simpa [hcs] using hs⟩

theorem IsLexeme.ne_nil {cs : List Char} (h : IsLexeme cs) : cs ≠ [] := by
  rcases h with ⟨c, word, rfl, -⟩ | ⟨s, hs, rfl⟩
  · simp
  · obtain ⟨c, more, hcs, -⟩ := exists_of_mem_signs hs
    simp [hcs]

theorem Spells.length_pos {kind : TokenKind} {word : String} (h : Spells kind word.toList) :
    0 < word.length := by
  rw [← String.length_toList]
  exact List.length_pos_iff.mpr h.isLexeme.ne_nil

theorem IsLexeme.isBlank {cs : List Char} (h : IsLexeme cs) : ∀ d ∈ cs, Text.isBlank d = false := by
  rcases h with ⟨c, word, rfl, hstart, hword⟩ | ⟨s, hs, rfl⟩
  · intro d hd
    rcases List.mem_cons.mp hd with rfl | hd
    · exact isBlank_of_isNameStart hstart
    · exact isBlank_of_isNameChar (hword d hd)
  · exact isBlank_of_mem_sign s hs

theorem not_mem_signs {c : Char} {word : List Char} (hstart : isNameStart c = true)
    (kind : TokenKind) : (c :: word, kind) ∉ signs := by
  intro hsign
  obtain ⟨d, more, hd, hnot⟩ := exists_of_mem_signs hsign
  cases hd
  rw [hstart] at hnot
  cases hnot

/-- The kind of a token is told from its text. -/
theorem Spells.unique {kind kind' : TokenKind} {cs : List Char} (h : Spells kind cs)
    (h' : Spells kind' cs) : kind = kind' := by
  have hkinds : ∀ s ∈ signs, ∀ s' ∈ signs, s.1 = s'.1 → s.2 = s'.2 := by decide
  rcases h with ⟨c, word, rfl, hstart, -, rfl⟩ | hsign
  · rcases h' with ⟨-, -, -, -, -, rfl⟩ | hsign'
    · rfl
    · exact absurd hsign' (not_mem_signs hstart kind')
  · rcases h' with ⟨c, word, rfl, hstart, -, -⟩ | hsign'
    · exact absurd hsign (not_mem_signs hstart kind)
    · exact hkinds _ hsign _ hsign' rfl

/-- Of the signs that a text starts with, the first one is the longest. -/
theorem length_le_of_sign? {cs : List Char} {s s' : List Char × TokenKind} (h : sign? cs = some s)
    (hs' : s' ∈ signs) (hstart : s'.1 <+: cs) : s'.1.length ≤ s.1.length := by
  have hordered : signs.Pairwise fun s t => ¬ s.1 <+: t.1 := by decide
  obtain ⟨hs, first, others, hsigns, hfirst⟩ := List.find?_eq_some_iff_append.mp h
  rw [decide_eq_true_eq] at hs
  rw [hsigns, List.mem_append, List.mem_cons] at hs'
  rcases hs' with hs' | rfl | hs'
  · have hnot := hfirst s' hs'
    simp only [Bool.not_eq_true', decide_eq_false_iff_not] at hnot
    exact absurd hstart hnot
  · exact Nat.le_refl _
  · rw [hsigns, List.pairwise_append, List.pairwise_cons] at hordered
    have hnot := hordered.2.1.1 s' hs'
    by_contra hlt
    exact hnot (List.prefix_of_prefix_length_le hs hstart (by omega))

theorem spells_of_lexeme {c : Char} {rest : List Char} {kind : TokenKind} {more : Nat}
    (h : lexeme c rest = some (kind, more)) : Spells kind (c :: rest.take more) := by
  cases hstart : isNameStart c with
  | true =>
    unfold lexeme at h
    rw [if_pos hstart] at h
    obtain ⟨rfl, rfl⟩ := Prod.mk.inj (Option.some.inj h)
    rw [take_length_takeWhile]
    exact .inl ⟨c, _, rfl, hstart, List.all_eq_true.mp List.all_takeWhile, rfl⟩
  | false =>
    rw [lexeme_eq_sign hstart, Option.map_eq_some_iff] at h
    obtain ⟨⟨cs, kind⟩, hsign, h⟩ := h
    cases h
    have hmem : (cs, kind) ∈ signs := List.mem_of_find?_eq_some hsign
    have hprefix : cs <+: c :: rest := by simpa using List.find?_some hsign
    obtain ⟨d, tail, rfl, -⟩ := exists_of_mem_signs hmem
    obtain ⟨rfl, htail⟩ := List.cons_prefix_cons.mp hprefix
    rw [List.length_cons, Nat.add_sub_cancel, ← List.prefix_iff_eq_take.mp htail]
    exact .inr hmem

/-- No lexeme at the front of a text is longer than the one that is found. -/
theorem length_le_of_lexeme {c : Char} {rest l : List Char} {kind : TokenKind} {more : Nat}
    (h : lexeme c rest = some (kind, more)) (hl : IsLexeme l) (hstarts : l <+: c :: rest) :
    l.length ≤ 1 + more := by
  cases hstart : isNameStart c with
  | true =>
    unfold lexeme at h
    rw [if_pos hstart] at h
    obtain ⟨-, rfl⟩ := Prod.mk.inj (Option.some.inj h)
    rcases hl with ⟨d, word, rfl, -, hword⟩ | ⟨s, hs, rfl⟩
    · obtain ⟨-, tail, rfl⟩ := List.cons_prefix_cons.mp hstarts
      rw [List.takeWhile_append_of_pos hword, List.length_cons, List.length_append]
      omega
    · obtain ⟨d, tail, hcs, hd⟩ := exists_of_mem_signs hs
      rw [hcs] at hstarts
      obtain ⟨rfl, -⟩ := List.cons_prefix_cons.mp hstarts
      rw [hstart] at hd
      cases hd
  | false =>
    rw [lexeme_eq_sign hstart, Option.map_eq_some_iff] at h
    obtain ⟨s, hsign, h⟩ := h
    cases h
    rcases hl with ⟨d, word, rfl, hd, -⟩ | ⟨s', hs', rfl⟩
    · obtain ⟨rfl, -⟩ := List.cons_prefix_cons.mp hstarts
      rw [hstart] at hd
      cases hd
    · have hle := length_le_of_sign? hsign hs' hstarts
      omega

def Covers (t : Token) (p : Nat) : Prop := t.pos ≤ p ∧ p < t.pos + t.text.length

/-- The tokens of what a text holds from position `start` on, from which it can be put together again. -/
structure Lossless (start : Nat) (text : List Char) (tokens : List Token) : Prop where
  start_le : ∀ t ∈ tokens, start ≤ t.pos
  /-- Each token reads as the text does at its position. -/
  reads : ∀ t ∈ tokens, t.text.toList <+: text.drop t.pos
  /-- The tokens stand one behind the other and do not overlap. -/
  ordered : tokens.Pairwise fun t u => t.pos < u.pos ∧ t.pos + t.text.length ≤ u.pos
  /-- The blanks are the characters that lie in no token. -/
  blank_iff : ∀ p c, start ≤ p → text[p]? = some c →
    (Text.isBlank c = true ↔ ∀ t ∈ tokens, ¬ t.Covers p)
  /-- The end marker stands behind the text, and all before it are lexemes. -/
  marked : ∃ body, tokens = body ++ [⟨.finish, "", text.length⟩] ∧
    ∀ t ∈ body, Spells t.kind t.text.toList
  /-- No lexeme at the position of a token is longer. -/
  longest : ∀ t ∈ tokens, ∀ l, IsLexeme l → l <+: text.drop t.pos → l.length ≤ t.text.length

variable {text rest : List Char} {pos : Nat} {c : Char} {tokens : List Token}

theorem lossless_nil (hpos : text.length = pos) :
    Lossless pos text tokens ↔ tokens = [⟨.finish, "", pos⟩] := by
  constructor
  · intro h
    obtain ⟨body, rfl, -⟩ := h.marked
    cases body with
    | nil => rw [List.nil_append, hpos]
    | cons t body =>
      have hstart := h.start_le t (by simp)
      have hlast := (List.pairwise_cons.mp h.ordered).1 ⟨.finish, "", text.length⟩ (by simp)
      have hlt : t.pos < text.length := hlast.1
      omega
  · rintro rfl
    constructor
    · simp
    · simp
    · simp
    · intro p c hp hc
      have hlt : p < text.length := (List.getElem?_eq_some_iff.mp hc).1
      omega
    · exact ⟨[], by rw [hpos, List.nil_append], by simp⟩
    · simp [List.drop_eq_nil_of_le hpos.le]

theorem Lossless.exists_covers (h : Lossless pos text tokens) {p : Nat} (hp : pos ≤ p)
    (hc : text[p]? = some c) (hblank : Text.isBlank c = false) : ∃ t ∈ tokens, t.Covers p := by
  by_contra hnone
  have hall : ∀ t ∈ tokens, ¬ t.Covers p := fun t ht hcovers => hnone ⟨t, ht, hcovers⟩
  rw [(h.blank_iff p c hp hc).mpr hall] at hblank
  cases hblank

theorem Lossless.spells (h : Lossless pos text tokens) {t : Token} (ht : t ∈ tokens)
    (hlt : t.pos < text.length) : Spells t.kind t.text.toList := by
  obtain ⟨body, rfl, hbody⟩ := h.marked
  rcases List.mem_append.mp ht with ht | ht
  · exact hbody t ht
  · obtain rfl := List.mem_singleton.mp ht
    exact absurd hlt (Nat.lt_irrefl _)

theorem lossless_blank (hc : text[pos]? = some c) (hblank : Text.isBlank c = true) :
    Lossless pos text tokens ↔ Lossless (pos + 1) text tokens := by
  have hlt : pos < text.length := (List.getElem?_eq_some_iff.mp hc).1
  constructor
  · intro h
    refine ⟨fun t ht => ?_, h.reads, h.ordered, fun p d hp => h.blank_iff p d (by omega), h.marked,
      h.longest⟩
    -- A token at the position of the blank would have that blank for its first character.
    have hle := h.start_le t ht
    have hne : t.pos ≠ pos := by
      intro hpos
      have hlength := (h.spells ht (by omega)).length_pos
      exact (h.blank_iff pos c (Nat.le_refl _) hc).mp hblank t ht ⟨by omega, by omega⟩
    omega
  · intro h
    refine ⟨fun t ht => ?_, h.reads, h.ordered, fun p d hp hd => ?_, h.marked, h.longest⟩
    · have := h.start_le t ht
      omega
    · by_cases hpos : p = pos
      · subst hpos
        obtain rfl : c = d := Option.some.inj (hc.symm.trans hd)
        have hnone : ∀ t ∈ tokens, ¬ t.Covers p := by
          intro t ht hcovers
          have := h.start_le t ht
          have := hcovers.1
          omega
        simp only [hblank, true_iff]
        exact hnone
      · exact h.blank_iff p d (by omega) hd

theorem getElem?_of_drop (h : text.drop pos = c :: rest) : text[pos]? = some c := by
  rw [← List.head?_drop, h]
  rfl

theorem Lossless.exists_cons (h : Lossless pos text tokens) (hdrop : text.drop pos = c :: rest)
    (hblank : Text.isBlank c = false) : ∃ t ts, tokens = t :: ts ∧ t.pos = pos ∧
      Spells t.kind t.text.toList := by
  have hc := getElem?_of_drop hdrop
  have hlt : pos < text.length := (List.getElem?_eq_some_iff.mp hc).1
  obtain ⟨t, ht, hcovers⟩ := h.exists_covers (Nat.le_refl _) hc hblank
  have hpos : t.pos = pos := Nat.le_antisymm hcovers.1 (h.start_le t ht)
  cases tokens with
  | nil => cases ht
  | cons u ts =>
    rcases List.mem_cons.mp ht with rfl | hts
    · exact ⟨t, ts, rfl, hpos, h.spells ht (by omega)⟩
    · have hbefore := ((List.pairwise_cons.mp h.ordered).1 t hts).1
      have hstart := h.start_le u List.mem_cons_self
      omega

theorem not_lossless (hdrop : text.drop pos = c :: rest) (hblank : Text.isBlank c = false)
    (hnone : lexeme c rest = none) : ¬ Lossless pos text tokens := by
  intro h
  obtain ⟨t, ts, rfl, rfl, hspells⟩ := h.exists_cons hdrop hblank
  have hreads := h.reads t List.mem_cons_self
  rw [hdrop] at hreads
  exact not_prefix_of_lexeme_eq_none hnone hspells.isLexeme hreads

/-- Behind the first token the tokens are those of the text that is left. -/
theorem Lossless.tail {t : Token} {ts : List Token} (h : Lossless pos text (t :: ts))
    (hlt : t.pos < text.length) : Lossless (t.pos + t.text.length) text ts := by
  obtain ⟨hfirst, hordered⟩ := List.pairwise_cons.mp h.ordered
  have hstart := h.start_le t List.mem_cons_self
  refine ⟨fun u hu => (hfirst u hu).2, fun u hu => h.reads u (List.mem_cons_of_mem t hu), hordered,
    fun p d hp hd => ?_, ?_, fun u hu => h.longest u (List.mem_cons_of_mem t hu)⟩
  · have hbehind : ¬ t.Covers p := by
      intro hcovers
      have := hcovers.2
      omega
    rw [h.blank_iff p d (by omega) hd, List.forall_mem_cons]
    exact and_iff_right hbehind
  · obtain ⟨body, htokens, hbody⟩ := h.marked
    cases body with
    | nil =>
      cases htokens
      exact absurd hlt (Nat.lt_irrefl _)
    | cons u body =>
      obtain ⟨rfl, rfl⟩ := List.cons.inj htokens
      exact ⟨body, rfl, fun u hu => hbody u (List.mem_cons_of_mem t hu)⟩

theorem Lossless.cons {t : Token} {ts : List Token} (h : Lossless (t.pos + t.text.length) text ts)
    (hspells : Spells t.kind t.text.toList) (hreads : t.text.toList <+: text.drop t.pos)
    (hlongest : ∀ l, IsLexeme l → l <+: text.drop t.pos → l.length ≤ t.text.length) :
    Lossless t.pos text (t :: ts) := by
  have hlength := hspells.length_pos
  refine ⟨?_, List.forall_mem_cons.mpr ⟨hreads, h.reads⟩, List.pairwise_cons.mpr ⟨?_, h.ordered⟩,
    fun p d hp hd => ?_, ?_, List.forall_mem_cons.mpr ⟨hlongest, h.longest⟩⟩
  · refine List.forall_mem_cons.mpr ⟨Nat.le_refl _, fun u hu => ?_⟩
    have := h.start_le u hu
    omega
  · intro u hu
    have := h.start_le u hu
    omega
  · rw [List.forall_mem_cons]
    by_cases hcovers : t.Covers p
    · -- A character of the token is a character of its text, where there are no blanks.
      have hmem : d ∈ t.text.toList := by
        have hlast : p < t.pos + t.text.length := hcovers.2
        have hplace : (text.drop t.pos)[p - t.pos]? = some d := by
          rw [List.getElem?_drop, Nat.add_sub_cancel' hp]
          exact hd
        obtain ⟨behind, hsplit⟩ := hreads
        have hin : p - t.pos < t.text.toList.length := by
          rw [String.length_toList]
          omega
        rw [← hsplit, List.getElem?_append_left hin] at hplace
        exact List.mem_of_getElem? hplace
      simp [hcovers, hspells.isLexeme.isBlank d hmem]
    · have hbehind : t.pos + t.text.length ≤ p := by
        by_contra hlt
        exact hcovers ⟨hp, by omega⟩
      rw [h.blank_iff p d hbehind hd]
      exact (and_iff_right hcovers).symm
  · obtain ⟨body, rfl, hbody⟩ := h.marked
    exact ⟨t :: body, rfl, List.forall_mem_cons.mpr ⟨hspells, hbody⟩⟩

theorem lossless_token {kind : TokenKind} {more : Nat} (hdrop : text.drop pos = c :: rest)
    (hblank : Text.isBlank c = false) (hlexeme : lexeme c rest = some (kind, more)) :
    Lossless pos text tokens ↔ ∃ ts,
      tokens = ⟨kind, String.ofList (c :: rest.take more), pos⟩ :: ts ∧
        Lossless (pos + 1 + more) text ts := by
  have hspells := spells_of_lexeme hlexeme
  have hstarts : c :: rest.take more <+: text.drop pos := by
    rw [hdrop, List.cons_prefix_cons]
    exact ⟨rfl, List.take_prefix more rest⟩
  have hlength : (c :: rest.take more).length = 1 + more := by
    rw [List.length_cons, List.length_take, Nat.min_eq_left (le_length_of_lexeme hlexeme)]
    omega
  constructor
  · intro h
    obtain ⟨t, ts, rfl, rfl, ht⟩ := h.exists_cons hdrop hblank
    have hreads := h.reads t List.mem_cons_self
    -- Two longest lexemes at one position are the same.
    have htext : t.text.toList = c :: rest.take more := by
      have hle := h.longest t List.mem_cons_self _ hspells.isLexeme hstarts
      have hge := length_le_of_lexeme hlexeme ht.isLexeme (hdrop ▸ hreads)
      have hsame : t.text.toList.length = (c :: rest.take more).length := by
        rw [String.length_toList] at hge ⊢
        omega
      exact (List.prefix_of_prefix_length_le hreads hstarts hsame.le).eq_of_length hsame
    have hkind : t.kind = kind := ht.unique (htext ▸ hspells)
    have hend : t.pos + t.text.length = t.pos + 1 + more := by
      rw [← String.length_toList, htext, hlength]
      omega
    refine ⟨ts, ?_, hend ▸ h.tail ?_⟩
    · rw [← htext, ← hkind, String.ofList_toList]
    · have hne : text.drop t.pos ≠ [] := by simp [hdrop]
      simpa using hne
  · rintro ⟨ts, rfl, h⟩
    have hend : pos + (String.ofList (c :: rest.take more)).length = pos + 1 + more := by
      rw [String.length_ofList, hlength]
      omega
    rw [← hend] at h
    refine Lossless.cons (t := ⟨kind, String.ofList (c :: rest.take more), pos⟩) h ?_ ?_ ?_
    · rw [String.toList_ofList]
      exact hspells
    · rw [String.toList_ofList]
      exact hstarts
    · intro l hl hstarts
      rw [String.length_ofList, hlength]
      exact length_le_of_lexeme hlexeme hl (hdrop ▸ hstarts)

/-- The scanner finds the tokens of what is left of a text, if it has tokens, and fails if not. -/
theorem scan_drop_eq_ok_iff (hpos : pos ≤ text.length) :
    scan pos (text.drop pos) = .ok tokens ↔ Lossless pos text tokens := by
  -- The text stays the same along the induction, so that positions keep their meaning.
  generalize hdrop : text.drop pos = cs
  induction pos, cs using scan.induct generalizing tokens with
  | case1 pos =>
    have hend : text.length = pos := Nat.le_antisymm (List.drop_eq_nil_iff.mp hdrop) hpos
    rw [scan_nil, lossless_nil hend, Except.ok.injEq]
    exact eq_comm
  | case2 pos c rest hblank ih =>
    have hc := getElem?_of_drop hdrop
    have hlt : pos < text.length := (List.getElem?_eq_some_iff.mp hc).1
    have hrest : text.drop (pos + 1) = rest := by rw [← List.tail_drop, hdrop, List.tail_cons]
    rw [scan_blank hblank, lossless_blank hc hblank]
    exact ih hlt hrest
  | case3 pos c rest hblank hnone =>
    have hnot : Text.isBlank c = false := by simpa using hblank
    rw [scan_error hnot hnone]
    simpa using not_lossless hdrop hnot hnone
  | case4 pos c rest hblank kind more hlexeme ih =>
    have hnot : Text.isBlank c = false := by simpa using hblank
    have hrest : text.drop (pos + 1 + more) = rest.drop more := by
      rw [← List.drop_drop, ← List.tail_drop, hdrop, List.tail_cons]
    have hle : pos + 1 + more ≤ text.length := by
      have hmore := le_length_of_lexeme hlexeme
      have hlength := congrArg List.length hdrop
      rw [List.length_drop, List.length_cons] at hlength
      omega
    rw [scan_cons hnot hlexeme, lossless_token hdrop hnot hlexeme, Attempt.bind_eq_ok]
    refine exists_congr fun ts => ?_
    rw [ih hle hrest, Except.ok.injEq, and_comm]
    exact and_congr_left fun _ => eq_comm

theorem Lossless.not_isLexeme_concat (h : Lossless pos text tokens) {t : Token} (ht : t ∈ tokens)
    (hnext : (text.drop (t.pos + t.text.length)).head? = some c) :
    ¬ IsLexeme (t.text.toList ++ [c]) := by
  intro hlexeme
  obtain ⟨behind, hbehind⟩ := h.reads t ht
  have hrest : text.drop (t.pos + t.text.length) = behind := by
    rw [← List.drop_drop, ← hbehind, List.drop_left' String.length_toList]
  obtain ⟨more, hmore⟩ := List.head?_eq_some_iff.mp (hrest ▸ hnext)
  have hstarts : t.text.toList ++ [c] <+: text.drop t.pos := by
    rw [← hbehind, hmore, List.prefix_append_right_inj]
    exact ⟨more, rfl⟩
  have hle := h.longest t ht _ hlexeme hstarts
  rw [List.length_append, String.length_toList, List.length_singleton] at hle
  omega

/-- A word goes on as long as there are characters of names. -/
theorem Lossless.delimited (h : Lossless pos text tokens) {t : Token} (ht : t ∈ tokens)
    {word : List Char} (htext : t.text.toList = c :: word) (hstart : isNameStart c = true) :
    Delimited (text.drop (t.pos + t.text.length)) := by
  have hlt : t.pos < text.length := by
    have hne : text.drop t.pos ≠ [] := (h.reads t ht).ne_nil (by simp [htext])
    simpa using hne
  have hword : ∀ d ∈ word, isNameChar d = true := by
    have hspells := h.spells ht hlt
    rw [htext] at hspells
    rcases hspells with ⟨_, _, hcs, -, hword, -⟩ | hsign
    · cases hcs
      exact hword
    · exact absurd hsign (not_mem_signs hstart t.kind)
  intro d hd
  by_contra hname
  have hlonger : IsLexeme (t.text.toList ++ [d]) := by
    rw [htext]
    refine .inl ⟨c, word ++ [d], rfl, hstart, List.forall_mem_append.mpr ⟨hword, ?_⟩⟩
    simpa using hname
  exact h.not_isLexeme_concat ht hd hlonger

/-- A text is scanned exactly into tokens that lose nothing of it but blanks and are the longest ones in
their places, and there is one list of such tokens at most. So a word goes on as long as there are
characters of names, and `&&` and `||` are not read as two signs. -/
theorem scan_lossless (input : String) (tokens : List Token) :
    (scan 0 input.toList = .ok tokens ↔ Lossless 0 input.toList tokens) ∧
    (scan 0 input.toList = .ok tokens → ∀ t ∈ tokens,
      (∀ c ∈ t.text.toList.head?, isNameStart c = true →
        Delimited (input.toList.drop (t.pos + t.text.length))) ∧
      ∀ c ∈ ['&', '|'], t.text.toList = [c] → (input.toList.drop (t.pos + 1)).head? ≠ some c) := by
  have hscan : scan 0 input.toList = .ok tokens ↔ Lossless 0 input.toList tokens :=
    scan_drop_eq_ok_iff (Nat.zero_le _)
  refine ⟨hscan, fun hok t ht => ?_⟩
  have h := hscan.mp hok
  constructor
  · intro c hc hstart
    obtain ⟨word, htext⟩ := List.head?_eq_some_iff.mp hc
    exact h.delimited ht htext hstart
  · intro c hc htext hnext
    have hlength : t.text.length = 1 := by rw [← String.length_toList, htext, List.length_singleton]
    have hlonger : IsLexeme (t.text.toList ++ [c]) := by
      rw [htext]
      simp only [List.mem_cons, List.not_mem_nil, or_false] at hc
      rcases hc with rfl | rfl
      · exact .inr ⟨(['&', '&'], .connective .and), by decide, rfl⟩
      · exact .inr ⟨(['|', '|'], .connective .or), by decide, rfl⟩
    rw [← hlength] at hnext
    exact h.not_isLexeme_concat ht hnext hlonger

/-- Of three signs in a row the first two are one token, and the word before them ends there. -/
theorem scan_lossless_doubled : ∃ tokens, scan 0 "a.b&&&c".toList = .ok tokens ∧
    tokens.map (fun t => (t.text, t.pos)) = [("a.b", 0), ("&&", 3), ("&", 5), ("c", 6), ("", 7)] ∧
    Lossless 0 "a.b&&&c".toList tokens ∧ Delimited ("a.b&&&c".toList.drop (0 + "a.b".length)) ∧
    ("a.b&&&c".toList.drop (5 + 1)).head? ≠ some '&' := by
  have hscan : scan 0 "a.b&&&c".toList = .ok [⟨.name, "a.b", 0⟩, ⟨.connective .and, "&&", 3⟩,
      ⟨.connective .and, "&", 5⟩, ⟨.name, "c", 6⟩, ⟨.finish, "", 7⟩] := by decide +kernel
  obtain ⟨hlossless, hunsplit⟩ := scan_lossless "a.b&&&c" _
  refine ⟨_, hscan, rfl, hlossless.mp hscan, ?_, ?_⟩
  · have hword := (hunsplit hscan ⟨.name, "a.b", 0⟩ (by simp)).1
    exact hword 'a' (by decide +kernel) (by decide +kernel)
  · have hsign := (hunsplit hscan ⟨.connective .and, "&", 5⟩ (by simp)).2
    exact hsign '&' (by simp) (by decide +kernel)

end SymbolicLtl.Token
