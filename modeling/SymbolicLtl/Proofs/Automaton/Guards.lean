import Mathlib.Data.List.DropRight
import SymbolicLtl.Automaton.NeverClaim
import SymbolicLtl.Proofs.Formula.Spacing
import SymbolicLtl.Proofs.Model.Expansion

/-!
Options of a claim. The guard of an option may contain the arrow that also stands before the jump;
the shortest guard is still the whole one, because no jump has a second arrow behind its own.
-/
namespace SymbolicLtl

namespace Token

theorem slash_not_mem_lexeme {c : Char} {rest : List Char} {kind : TokenKind} {more : Nat}
    (h : lexeme c rest = some (kind, more)) : '/' ∉ c :: rest.take more := by
  have hslash : isNameChar '/' = false := by decide +kernel
  unfold lexeme at h
  split_ifs at h with hstart
  · cases h
    have hchars : ∀ d ∈ c :: rest.takeWhile isNameChar, isNameChar d = true :=
      List.forall_mem_cons.mpr
        ⟨isNameChar_of_isNameStart hstart, List.all_eq_true.mp List.all_takeWhile⟩
    rw [take_length_takeWhile]
    intro hmem
    rw [hchars _ hmem] at hslash
    cases hslash
  · split at h <;> cases h <;> simp

/-- A text with tokens has no slash, so no comment starts or ends in it. -/
theorem slash_not_mem_of_scan {pos : Nat} {cs : List Char} {tokens : List Token}
    (h : scan pos cs = .ok tokens) : '/' ∉ cs := by
  induction pos, cs using scan.induct generalizing tokens with
  | case1 pos => exact List.not_mem_nil
  | case2 pos c rest hblank ih =>
    rw [scan_blank hblank] at h
    have hc : '/' ≠ c := by
      rintro rfl
      exact absurd hblank (by decide)
    exact List.not_mem_cons_of_ne_of_not_mem hc (ih h)
  | case3 pos c rest hblank hlexeme =>
    rw [scan_error (by simpa using hblank) hlexeme] at h
    cases h
  | case4 pos c rest hblank kind more hlexeme ih =>
    rw [scan_cons (by simpa using hblank) hlexeme] at h
    obtain ⟨tokens', htokens', -⟩ := Attempt.bind_eq_ok.mp h
    have hfront := slash_not_mem_lexeme hlexeme
    rw [← List.take_append_drop more rest, ← List.cons_append, List.mem_append, not_or]
    exact ⟨hfront, ih htokens'⟩

end Token

namespace NeverClaim

theorem isSeparator_apart {c : Char} (h : isSeparator c = true) :
    Text.isBlank c = true ∧ isStateStart c = false := by
  unfold isSeparator at h
  simp only [Bool.or_eq_true, beq_iff_eq] at h
  rcases h with (((rfl | rfl) | rfl) | rfl) | rfl <;> decide

theorem exists_core {n : Nat} {scope : Scope} {guard : String} {d : Diagram n}
    (h : scope.compileText guard = .ok d) :
    ∃ before core behind, guard.toList = before ++ core ++ behind ∧
      (∀ c ∈ before, isSeparator c = true) ∧ (∀ c ∈ behind, isSeparator c = true) ∧
      (∀ c ∈ core.getLast?, isSeparator c = false) ∧
      (∃ c cs, core = c :: cs ∧ isSeparator c = false) ∧
      scope.compileText (String.ofList core) = .ok d := by
  obtain ⟨f, hparse, hcompile⟩ := Model.compileText_eq_ok.mp h
  let rest := guard.toList.dropWhile isSeparator
  have hsplit : guard.toList = guard.toList.takeWhile isSeparator ++ rest.rdropWhile isSeparator ++
      rest.rtakeWhile isSeparator := by
    rw [List.append_assoc, List.rdropWhile_append_rtakeWhile, List.takeWhile_append_dropWhile]
  have hbefore : ∀ c ∈ guard.toList.takeWhile isSeparator, isSeparator c = true :=
    List.all_eq_true.mp List.all_takeWhile
  have hbehind : ∀ c ∈ rest.rtakeWhile isSeparator, isSeparator c = true :=
    fun c hc => List.mem_rtakeWhile_imp hc
  have hcore : Formula.parse (String.ofList (rest.rdropWhile isSeparator)) = .ok f := by
    apply Formula.parse_of_append (fun c hc => (isSeparator_apart (hbefore c hc)).1)
      (fun c hc => (isSeparator_apart (hbehind c hc)).1)
    rwa [← hsplit, String.ofList_toList]
  have hne : rest.rdropWhile isSeparator ≠ [] := by
    intro hnil
    rw [hnil] at hcore
    exact Formula.parse_nil_ne_ok f hcore
  refine ⟨_, _, _, hsplit, hbefore, hbehind, ?_, ?_,
    Model.compileText_eq_ok.mpr ⟨f, hcore, hcompile⟩⟩
  · intro c hc
    rw [Option.mem_def, List.getLast?_eq_some_getLast hne] at hc
    cases hc
    simpa using List.rdropWhile_last_not isSeparator rest hne
  · obtain ⟨c, cs, hcons⟩ := List.exists_cons_of_ne_nil hne
    obtain ⟨more, hrest⟩ := List.rdropWhile_prefix isSeparator rest
    refine ⟨c, cs, hcons, ?_⟩
    rw [hcons, List.cons_append] at hrest
    have hhead := List.head?_dropWhile_not isSeparator guard.toList
    rw [show guard.toList.dropWhile isSeparator = c :: (cs ++ more) from hrest.symm] at hhead
    simpa using hhead

/-- A state name is a letter or an underscore, then letters, underscores and digits. -/
def IsStateName (name : String) : Prop :=
  ∃ c cs, name.toList = c :: cs ∧ isStateStart c = true ∧ ∀ d ∈ cs, isStateChar d = true

theorem mem_dropWhile {α : Type} {p : α → Bool} {l : List α} {x : α} (hx : x ∈ l)
    (hp : p x = false) : x ∈ l.dropWhile p := by
  rw [← List.takeWhile_append_dropWhile (p := p) (l := l), List.mem_append] at hx
  refine hx.resolve_left fun hmem => ?_
  rw [List.all_eq_true.mp List.all_takeWhile x hmem] at hp
  cases hp

theorem stateName_append {c : Char} {cs rest : List Char} (hc : isStateStart c = true)
    (hcs : ∀ d ∈ cs, isStateChar d = true) (hrest : ∀ d ∈ rest.head?, isStateChar d = false) :
    stateName (c :: cs ++ rest) = some (c :: cs, rest) := by
  have htake : rest.takeWhile isStateChar = [] := by
    cases rest with
    | nil => rfl
    | cons d rest => exact List.takeWhile_cons_of_neg (by simp [hrest d rfl])
  have hdrop : rest.dropWhile isStateChar = rest := by
    cases rest with
    | nil => rfl
    | cons d rest => exact List.dropWhile_cons_of_neg (by simp [hrest d rfl])
  rw [List.cons_append, stateName, if_pos hc, List.takeWhile_append_of_pos hcs,
    List.dropWhile_append_of_pos hcs, htake, hdrop, List.append_nil]

theorem dash_not_mem_of_stateName {text name rest : List Char}
    (h : stateName text = some (name, rest)) (hrest : '-' ∉ rest) : '-' ∉ text := by
  cases text with
  | nil => exact List.not_mem_nil
  | cons c text =>
    rw [stateName] at h
    split_ifs at h with hc
    cases h
    have hdash : '-' ≠ c := by
      rintro rfl
      exact absurd hc (by decide)
    have hchars : '-' ∉ text.takeWhile isStateChar := by
      intro hmem
      exact absurd (List.all_eq_true.mp List.all_takeWhile _ hmem) (by decide)
    rw [← List.takeWhile_append_dropWhile (p := isStateChar) (l := text), List.mem_cons,
      List.mem_append]
    tauto

theorem jump_eq_some_iff {text : List Char} {target : String} :
    jump text = some target ↔ ∃ rest₁ rest₂ name rest₃,
      text.dropWhile isSeparator = '-' :: '>' :: rest₁ ∧
      rest₁.dropWhile isSeparator = ['g', 'o', 't', 'o'] ++ rest₂ ∧
      isSeparator (rest₂.headD 'x') = true ∧
      stateName (rest₂.dropWhile isSeparator) = some (name, rest₃) ∧
      (rest₃.dropWhile isSeparator = [] ∨ rest₃.dropWhile isSeparator = [';']) ∧
      String.ofList name = target := by
  unfold jump
  simp only [Option.bind_eq_bind, Option.bind_eq_some_iff, Text.after_eq_some_iff]
  constructor
  · rintro ⟨rest₁, hrest₁, rest₂, hrest₂, h⟩
    split_ifs at h with hspace
    · cases h
    · obtain ⟨⟨name, rest₃⟩, hname, h⟩ := Option.bind_eq_some_iff.mp h
      obtain ⟨hrest₃, htarget⟩ : (rest₃.dropWhile isSeparator = [] ∨
          rest₃.dropWhile isSeparator = [';']) ∧ String.ofList name = target := by
        split at h <;> simp_all
      exact ⟨rest₁, rest₂, name, rest₃, hrest₁, hrest₂, by simpa using hspace, hname, hrest₃,
        htarget⟩
  · rintro ⟨rest₁, rest₂, name, rest₃, hrest₁, hrest₂, hspace, hname, hrest₃, htarget⟩
    refine ⟨rest₁, hrest₁, rest₂, hrest₂, ?_⟩
    rw [hspace, if_neg (by decide), hname, Option.bind_some, ← htarget]
    rcases hrest₃ with hnil | hsemicolon
    · rw [hnil]
    · rw [hsemicolon]
      rfl

/-- Behind the first sign of a jump there is no other arrow. -/
theorem exists_of_jump {text : List Char} {target : String} (h : jump text = some target) :
    ∃ rest, text.dropWhile isSeparator = '-' :: rest ∧ '-' ∉ rest := by
  obtain ⟨rest₁, rest₂, name, rest₃, hrest₁, hrest₂, -, hname, hrest₃, -⟩ := jump_eq_some_iff.mp h
  have hseparator : isSeparator '-' = false := by decide
  have hdash₃ : '-' ∉ rest₃ := by
    intro hmem
    have hmem := mem_dropWhile hmem hseparator
    rcases hrest₃ with hnil | hsemicolon
    · simp [hnil] at hmem
    · simp [hsemicolon] at hmem
  have hdash₂ : '-' ∉ rest₂ := fun hmem =>
    dash_not_mem_of_stateName hname hdash₃ (mem_dropWhile hmem hseparator)
  have hdash₁ : '-' ∉ rest₁ := by
    intro hmem
    have hmem := mem_dropWhile hmem hseparator
    rw [hrest₂] at hmem
    simp [hdash₂] at hmem
  refine ⟨'>' :: rest₁, hrest₁, ?_⟩
  simpa using hdash₁

theorem jump_option {behind : List Char} {target : String} {tail : List Char}
    (hbehind : ∀ c ∈ behind, isSeparator c = true) (htarget : IsStateName target)
    (htail : tail = [] ∨ tail = [';']) :
    jump (behind ++ (" -> goto ".toList ++ target.toList ++ tail)) = some target := by
  obtain ⟨c, cs, hchars, hc, hcs⟩ := htarget
  have hstart : isSeparator c = false := by
    by_contra hseparator
    rw [(isSeparator_apart (by simpa using hseparator)).2] at hc
    cases hc
  have hname : stateName (c :: cs ++ tail) = some (c :: cs, tail) := by
    apply stateName_append hc hcs
    rcases htail with rfl | rfl
    · simp
    · simpa using (by decide : isStateChar ';' = false)
  rw [jump_eq_some_iff]
  refine ⟨" goto ".toList ++ target.toList ++ tail, ' ' :: (target.toList ++ tail), c :: cs, tail,
    ?_, ?_, ?_, ?_, ?_, ?_⟩
  · rw [List.dropWhile_append_of_pos hbehind]
    rfl
  · rfl
  · exact (by decide : isSeparator ' ' = true)
  · rw [List.dropWhile_cons_of_pos (by decide), hchars, List.cons_append,
      List.dropWhile_cons_of_neg (by simp [hstart])]
    exact hname
  · rcases htail with rfl | rfl <;> decide
  · rw [← hchars, String.ofList_toList]

theorem jump_append_eq_none {l rest : List Char} (hl : ∃ c ∈ l, isSeparator c = false)
    (hrest : '-' ∈ rest) : jump (l ++ rest) = none := by
  obtain ⟨c, hc, hseparator⟩ := hl
  have hmem := mem_dropWhile hc hseparator
  obtain ⟨d, l', hl'⟩ := List.exists_cons_of_ne_nil (List.ne_nil_of_mem hmem)
  by_contra hne
  obtain ⟨target, htarget⟩ := Option.ne_none_iff_exists'.mp hne
  obtain ⟨rest', hdrop, hnone⟩ := exists_of_jump htarget
  rw [List.dropWhile_append, hl'] at hdrop
  simp only [List.isEmpty_cons, Bool.false_eq_true, if_false, List.cons_append] at hdrop
  obtain ⟨-, rfl⟩ := List.cons.inj hdrop
  exact hnone (List.mem_append_right l' hrest)

theorem guardedJump_append {core rest : List Char} {target : String}
    (hjump : jump rest = some target) (hrest : '-' ∈ rest)
    (hcore : ∀ c ∈ core.getLast?, isSeparator c = false) (guard : List Char) :
    guardedJump guard (core ++ rest) = some (String.ofList (guard ++ core), target) := by
  induction core generalizing guard with
  | nil =>
    unfold guardedJump
    rw [List.nil_append, hjump, List.append_nil]
  | cons c core ih =>
    obtain ⟨d, hd⟩ : ∃ d, (c :: core).getLast? = some d := ⟨_, List.getLast?_cons⟩
    have hnone : jump (c :: core ++ rest) = none :=
      jump_append_eq_none ⟨d, List.mem_of_getLast? hd, hcore d hd⟩ hrest
    have htail : ∀ c ∈ core.getLast?, isSeparator c = false := by
      intro e he
      apply hcore e
      rw [Option.mem_def] at he ⊢
      rw [List.getLast?_cons, he]
      rfl
    unfold guardedJump
    rw [hnone]
    show guardedJump (guard ++ [c]) (core ++ rest) = _
    rw [ih htail, List.append_assoc]
    rfl

theorem read_colons {rest : List Char} {guard target : String}
    (h : guardedJump [] (rest.dropWhile isSeparator) = some (guard, target)) :
    Line.read (':' :: ':' :: rest) = .option guard target := by
  have hlabel : label (':' :: ':' :: rest) = none := rfl
  have hne : ∀ x ∈ Line.idleTexts ++ ["skip", "skip;"], String.ofList (':' :: ':' :: rest) ≠ x := by
    intro x hx heq
    have hcolon : ∀ x ∈ Line.idleTexts ++ ["skip", "skip;"], x.toList.head? ≠ some ':' := by
      decide +kernel
    apply hcolon x hx
    rw [← heq, String.toList_ofList]
    rfl
  rw [List.forall_mem_append] at hne
  have hidle : Line.idleTexts.contains (String.ofList (':' :: ':' :: rest)) = false := by
    rw [Bool.eq_false_iff]
    intro hmem
    exact hne.1 _ (List.contains_iff_mem.mp hmem) rfl
  have hskip : ¬ (String.ofList (':' :: ':' :: rest) = "skip" ∨
      String.ofList (':' :: ':' :: rest) = "skip;") := by
    simpa using hne.2
  unfold Line.read
  rw [hlabel]
  dsimp only
  rw [hidle, if_neg (by decide), if_neg hskip]
  simp only [h]

/-- The line of an option has its guard, up to separators around it, and its target. -/
theorem exists_read_option {n : Nat} {scope : Scope} {guard target : String} {d : Diagram n}
    {tail : List Char} (hguard : scope.compileText guard = .ok d) (htarget : IsStateName target)
    (htail : tail = [] ∨ tail = [';']) :
    ∃ core, scope.compileText core = .ok d ∧
      Line.read (":: ".toList ++ guard.toList ++ (" -> goto ".toList ++ target.toList ++ tail)) =
        .option core target := by
  obtain ⟨before, core, behind, hsplit, hbefore, hbehind, hlast, ⟨c, cs, rfl, hc⟩, hcore⟩ :=
    exists_core hguard
  have hdash : '-' ∈ behind ++ (" -> goto ".toList ++ target.toList ++ tail) := by
    have harrow : '-' ∈ " -> goto ".toList := by decide
    simp only [List.mem_append]
    tauto
  have hread := guardedJump_append (jump_option hbehind htarget htail) hdash hlast []
  have hdrop : (' ' :: (guard.toList ++ (" -> goto ".toList ++ target.toList ++ tail))).dropWhile
      isSeparator = c :: cs ++ (behind ++ (" -> goto ".toList ++ target.toList ++ tail)) := by
    rw [List.dropWhile_cons_of_pos (by decide), hsplit, List.append_assoc, List.append_assoc,
      List.dropWhile_append_of_pos hbefore, List.cons_append,
      List.dropWhile_cons_of_neg (by simp [hc])]
  refine ⟨String.ofList (c :: cs), hcore, ?_⟩
  show Line.read (':' :: ':' :: (' ' :: (guard.toList ++ _))) = _
  apply read_colons
  rw [hdrop, hread]
  rfl

end NeverClaim
end SymbolicLtl
