import Mathlib.Tactic.Common
import SymbolicLtl.Automaton.NeverClaim

/-!
Layout of claims. Indentation, blank lines and comments at the ends of lines do not change which
lines a text has.
-/
namespace SymbolicLtl.NeverClaim

theorem afterComment_append {content : List Char} (h : ¬ ['*', '/'] <:+: content)
    (rest : List Char) : afterComment (content ++ '*' :: '/' :: rest) = some rest := by
  induction content with
  | nil => rfl
  | cons c content ih =>
    have htail : ¬ ['*', '/'] <:+: content := fun hi => h (hi.trans (List.suffix_cons c _).isInfix)
    rw [List.cons_append]
    unfold afterComment
    split
    · next heq => cases heq
    · next rest' heq =>
      obtain ⟨rfl, hslash⟩ := List.cons.inj heq
      cases content with
      | nil => cases hslash
      | cons d content =>
        obtain rfl : d = '/' := (List.cons.inj hslash).1
        exact absurd (List.prefix_append ['*', '/'] content).isInfix h
    · next heq =>
      obtain ⟨-, rfl⟩ := List.cons.inj heq
      exact ih htail

theorem stripComments_nil : stripComments [] = [] := by
  unfold stripComments
  rfl

theorem stripComments_cons {c : Char} (h : c ≠ '/') (rest : List Char) :
    stripComments (c :: rest) = c :: stripComments rest := by
  conv_lhs => unfold stripComments
  split
  · next heq => cases heq
  · next heq => exact absurd (List.cons.inj heq).1 h
  · next heq =>
    obtain ⟨rfl, rfl⟩ := List.cons.inj heq
    rfl

theorem stripComments_append {l : List Char} (h : '/' ∉ l) (rest : List Char) :
    stripComments (l ++ rest) = l ++ stripComments rest := by
  induction l with
  | nil => rfl
  | cons c l ih =>
    rw [List.mem_cons, not_or] at h
    rw [List.cons_append, stripComments_cons (Ne.symm h.1), ih h.2, List.cons_append]

theorem stripComments_comment {content : List Char} (h : ¬ ['*', '/'] <:+: content)
    (rest : List Char) :
    stripComments ('/' :: '*' :: content ++ '*' :: '/' :: rest) = stripComments rest := by
  have hafter := afterComment_append h rest
  rw [List.cons_append, List.cons_append, stripComments]
  split
  · next rest' heq =>
    obtain rfl : rest = rest' := Option.some.inj (hafter.symm.trans heq)
    rfl
  · next heq => cases hafter.symm.trans heq

theorem splitLines_of_not_mem {l : List Char} (h : '\n' ∉ l) : splitLines l = [l] := by
  induction l with
  | nil => rfl
  | cons c l ih =>
    rw [List.mem_cons, not_or] at h
    unfold splitLines
    split
    · next heq => cases heq
    · next heq => exact absurd (List.cons.inj heq).1.symm h.1
    · next heq =>
      obtain ⟨rfl, rfl⟩ := List.cons.inj heq
      rw [ih h.2]

theorem splitLines_append_newline {l : List Char} (h : '\n' ∉ l) (rest : List Char) :
    splitLines (l ++ '\n' :: rest) = l :: splitLines rest := by
  induction l with
  | nil => rfl
  | cons c l ih =>
    rw [List.mem_cons, not_or] at h
    rw [List.cons_append]
    conv_lhs => unfold splitLines
    split
    · next heq => cases heq
    · next heq => exact absurd (List.cons.inj heq).1.symm h.1
    · next heq =>
      obtain ⟨rfl, rfl⟩ := List.cons.inj heq
      rw [ih h.2]

def Blank (cs : List Char) : Prop := ∀ c ∈ cs, Text.isBlank c = true ∧ c ≠ '\n'

/-- A line that layout leaves as it is: there is no comment in it, and no blank space around it. -/
structure Plain (line : List Char) : Prop where
  slash : '/' ∉ line
  newline : '\n' ∉ line
  head : ∀ c ∈ line.head?, Text.isBlank c = false
  last : ∀ c ∈ line.getLast?, Text.isBlank c = false

theorem dropWhile_blank_append {blanks cs : List Char} (h : Blank blanks)
    (hcs : ∀ c ∈ cs.head?, Text.isBlank c = false) :
    (blanks ++ cs).dropWhile Text.isBlank = cs := by
  rw [List.dropWhile_append_of_pos fun c hc => (h c hc).1]
  cases cs with
  | nil => rfl
  | cons c cs => exact List.dropWhile_cons_of_neg (by simp [hcs c rfl])

theorem trimBlank_append {indent line tail : List Char} (hindent : Blank indent)
    (htail : Blank tail) (hline : Plain line) :
    Text.trimBlank (indent ++ line ++ tail) = line := by
  have hreverse : Blank tail.reverse := fun c hc => htail c (List.mem_reverse.mp hc)
  unfold Text.trimBlank
  rw [List.append_assoc]
  by_cases hnil : line = []
  · subst hnil
    have hblank : Blank (indent ++ tail) := by
      intro c hc
      rw [List.mem_append] at hc
      exact hc.elim (hindent c) (htail c)
    have hnone : (indent ++ tail ++ []).dropWhile Text.isBlank = [] :=
      dropWhile_blank_append hblank (by simp)
    rw [List.append_nil] at hnone
    rw [List.nil_append, hnone]
    rfl
  · have hlast : ∀ c ∈ line.reverse.head?, Text.isBlank c = false := by
      rw [List.head?_reverse]
      exact hline.last
    obtain ⟨d, line', rfl⟩ := List.exists_cons_of_ne_nil hnil
    rw [dropWhile_blank_append hindent (by simpa using hline.head), List.reverse_append,
      dropWhile_blank_append hreverse hlast, List.reverse_reverse]

/-- What may stand behind a line: blank space and comments. -/
inductive Trailer : List Char → Prop
  | nil : Trailer []
  | blank {c : Char} {cs : List Char} : Text.isBlank c = true → c ≠ '\n' → Trailer cs →
    Trailer (c :: cs)
  | comment {content cs : List Char} : ¬ ['*', '/'] <:+: content → Trailer cs →
    Trailer ('/' :: '*' :: content ++ '*' :: '/' :: cs)

theorem Trailer.exists_blank {cs : List Char} (h : Trailer cs) :
    ∃ blanks, Blank blanks ∧ ∀ rest, stripComments (cs ++ rest) = blanks ++ stripComments rest := by
  induction h with
  | nil => exact ⟨[], by simp [Blank], fun rest => rfl⟩
  | @blank c cs hblank hnewline _ ih =>
    obtain ⟨blanks, hblanks, hstrip⟩ := ih
    have hslash : c ≠ '/' := by
      rintro rfl
      exact absurd hblank (by decide)
    refine ⟨c :: blanks, List.forall_mem_cons.mpr ⟨⟨hblank, hnewline⟩, hblanks⟩, fun rest => ?_⟩
    rw [List.cons_append, stripComments_cons hslash, hstrip, List.cons_append]
  | @comment content cs hcontent _ ih =>
    obtain ⟨blanks, hblanks, hstrip⟩ := ih
    refine ⟨blanks, hblanks, fun rest => ?_⟩
    have hremoved := stripComments_comment hcontent (cs ++ rest)
    rw [← hstrip, ← hremoved]
    simp

def LaidOut (line cs : List Char) : Prop :=
  ∃ indent tail, Blank indent ∧ Trailer tail ∧ cs = indent ++ line ++ tail

theorem LaidOut.exists_row {line cs : List Char} (h : LaidOut line cs) (hline : Plain line) :
    ∃ row, '\n' ∉ row ∧ Text.trimBlank row = line ∧
      ∀ rest, stripComments (cs ++ rest) = row ++ stripComments rest := by
  obtain ⟨indent, tail, hindent, htail, rfl⟩ := h
  obtain ⟨blanks, hblanks, hstrip⟩ := htail.exists_blank
  have hslash : '/' ∉ indent ++ line := by
    rw [List.mem_append, not_or]
    refine ⟨fun hmem => ?_, hline.slash⟩
    exact absurd (hindent _ hmem).1 (by decide)
  refine ⟨indent ++ line ++ blanks, ?_, trimBlank_append hindent hblanks hline, fun rest => ?_⟩
  · rw [List.mem_append, List.mem_append, not_or, not_or]
    exact ⟨⟨fun hmem => (hindent _ hmem).2 rfl, hline.newline⟩, fun hmem => (hblanks _ hmem).2 rfl⟩
  · rw [List.append_assoc (indent ++ line), stripComments_append hslash, hstrip,
      List.append_assoc (indent ++ line)]

/-- A text with the given lines and with blank ones between them. The last line need not end. -/
inductive Layout : List (List Char) → List Char → Prop
  | finish {cs : List Char} : LaidOut [] cs → Layout [] cs
  | last {line cs : List Char} : LaidOut line cs → Layout [line] cs
  | blank {lines : List (List Char)} {cs rest : List Char} : LaidOut [] cs → Layout lines rest →
    Layout lines (cs ++ '\n' :: rest)
  | line {line : List Char} {lines : List (List Char)} {cs rest : List Char} : LaidOut line cs →
    Layout lines rest → Layout (line :: lines) (cs ++ '\n' :: rest)

theorem plain_nil : Plain [] where
  slash := List.not_mem_nil
  newline := List.not_mem_nil
  head := by simp
  last := by simp

namespace Plain

variable {l m : List Char}

theorem append (hl : Plain l) (hm : Plain m) : Plain (l ++ m) where
  slash := by
    rw [List.mem_append, not_or]
    exact ⟨hl.slash, hm.slash⟩
  newline := by
    rw [List.mem_append, not_or]
    exact ⟨hl.newline, hm.newline⟩
  head := by
    intro c hc
    rw [List.head?_append, Option.mem_def, Option.or_eq_some_iff] at hc
    exact hc.elim (hl.head c) fun h => hm.head c h.2
  last := by
    intro c hc
    rw [List.getLast?_append, Option.mem_def, Option.or_eq_some_iff] at hc
    exact hc.elim (hm.last c) fun h => hl.last c h.2

/-- Between two plain parts there may be blank space. -/
theorem around (hl : Plain l) (hm : Plain m) (hlne : l ≠ []) (hmne : m ≠ []) {middle : List Char}
    (hslash : '/' ∉ middle) (hnewline : '\n' ∉ middle) : Plain (l ++ (middle ++ m)) where
  slash := by
    rw [List.mem_append, List.mem_append, not_or, not_or]
    exact ⟨hl.slash, hslash, hm.slash⟩
  newline := by
    rw [List.mem_append, List.mem_append, not_or, not_or]
    exact ⟨hl.newline, hnewline, hm.newline⟩
  head := by
    obtain ⟨d, l, rfl⟩ := List.exists_cons_of_ne_nil hlne
    exact hl.head
  last := by
    intro c hc
    rw [← List.append_assoc, List.getLast?_append] at hc
    obtain ⟨d, hd⟩ : ∃ d, m.getLast? = some d := ⟨_, List.getLast?_eq_some_getLast hmne⟩
    rw [hd, Option.some_or] at hc
    exact hm.last c (hd.trans hc)

end Plain

/-- A row of a text is followed by the other rows. -/
theorem significantLines_row {line cs : List Char} (h : LaidOut line cs) (hline : Plain line)
    (rest : List Char) :
    significantLines (cs ++ '\n' :: rest) =
      [line].filter (!·.isEmpty) ++ significantLines rest := by
  obtain ⟨row, hrow, htrim, hstrip⟩ := h.exists_row hline
  unfold significantLines
  rw [hstrip, stripComments_cons (by decide), splitLines_append_newline hrow, List.map_cons, htrim,
    ← List.filter_append]
  rfl

theorem significantLines_last {line cs : List Char} (h : LaidOut line cs) (hline : Plain line) :
    significantLines cs = [line].filter (!·.isEmpty) := by
  obtain ⟨row, hrow, htrim, hstrip⟩ := h.exists_row hline
  have hcs := hstrip []
  rw [stripComments_nil, List.append_nil, List.append_nil] at hcs
  unfold significantLines
  rw [hcs, splitLines_of_not_mem hrow, List.map_singleton, htrim]

/-- Layout does not change the lines of a text. -/
theorem significantLines_of_layout {lines : List (List Char)} {text : List Char}
    (h : Layout lines text) (hlines : ∀ line ∈ lines, line ≠ [] ∧ Plain line) :
    significantLines text = lines := by
  induction h with
  | finish hcs => exact significantLines_last hcs plain_nil
  | last hcs =>
    obtain ⟨hne, hplain⟩ := hlines _ (List.mem_singleton_self _)
    rw [significantLines_last hcs hplain]
    simp [hne]
  | blank hcs _ ih =>
    rw [significantLines_row hcs plain_nil, ih hlines]
    rfl
  | line hcs _ ih =>
    rw [List.forall_mem_cons] at hlines
    rw [significantLines_row hcs hlines.1.2, ih hlines.2]
    simp [hlines.1.1]

end SymbolicLtl.NeverClaim
