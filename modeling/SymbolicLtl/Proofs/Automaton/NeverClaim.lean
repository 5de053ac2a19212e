import SymbolicLtl.Automaton.NeverClaim
import SymbolicLtl.Proofs.Model.Expansion

/-!
Reading never claims. Jumps lead to declared states, so an automaton is read or the claim is refused.
-/
namespace SymbolicLtl

variable {n : Nat}

def Automaton.loop (n : Nat) : Automaton n := ⟨1, [⟨0, 0, .const true⟩], [0], [0]⟩

theorem Automaton.checkState_val (a : Automaton n) (q : Fin a.size) : a.checkState q.val = .ok q := by
  have hbound : 0 ≤ (q.val : Int) ∧ (q.val : Int) < a.size := by omega
  unfold checkState
  rw [dif_pos hbound]
  rfl

theorem Automaton.addEdge_eq_ok (a : Automaton n) {q t : Nat} (hq : q < a.size) (ht : t < a.size)
    (label : Diagram n) :
    a.addEdge q t label = .ok { a with edges := a.edges ++ [⟨⟨q, hq⟩, ⟨t, ht⟩, label⟩] } := by
  unfold addEdge
  rw [a.checkState_val ⟨q, hq⟩, Attempt.ok_bind, a.checkState_val ⟨t, ht⟩, Attempt.ok_bind]
  rfl

namespace NeverClaim

/-- While lines are read, the automaton has a state for each name, and the current one is there. -/
def Reading (names : List String) (s : Automaton n × Option Nat) : Prop :=
  s.1.size = names.length ∧ ∀ q, s.2 = some q → q < names.length

theorem lt_of_idxOf? {names : List String} {name : String} {i : Nat}
    (h : names.idxOf? name = some i) : i < names.length := by
  obtain ⟨hlt, -⟩ := List.findIdx?_eq_some_iff_getElem.mp h
  exact hlt

section Line

variable {scope : Scope} {names : List String} {text : List Char} {current next : Option Nat}

theorem addLine_of_none {a : Automaton n}
    (h : (readLine scope names text current :
      Attempt ClaimError (Option (Nat × Nat × Diagram n) × Option Nat)) = .ok (none, next)) :
    addLine scope names text (a, current) = .ok (a, next) := by
  unfold addLine
  rw [h]
  rfl

theorem addLine_of_some {a a' : Automaton n} {q t : Nat} {d : Diagram n}
    (h : readLine scope names text current = .ok (some (q, t, d), next))
    (ha : a.addEdge q t d = .ok a') :
    addLine scope names text (a, current) = .ok (a', next) := by
  unfold addLine
  rw [h, Attempt.ok_bind]
  dsimp only
  rw [ha]
  rfl

/-- The edge of a line is between declared states, and so is the state whose lines come next. -/
theorem bounds_of_readLine (hcurrent : ∀ q, current = some q → q < names.length)
    {edge : Option (Nat × Nat × Diagram n)}
    (h : readLine scope names text current = .ok (edge, next)) :
    (∀ q t d, edge = some (q, t, d) → q < names.length ∧ t < names.length) ∧
      ∀ q, next = some q → q < names.length := by
  unfold readLine at h
  split at h
  · cases h
    exact ⟨by simp, fun q hq => lt_of_idxOf? hq⟩
  · cases h
  · cases h
    exact ⟨by simp, hcurrent⟩
  · next q _ =>
    cases h
    refine ⟨fun q' t d he => ?_, hcurrent⟩
    cases he
    exact ⟨hcurrent q rfl, hcurrent q rfl⟩
  · cases h
  · cases h
  · next guard target q _ =>
    cases ht : names.idxOf? target with
    | none =>
      rw [ht] at h
      cases h
    | some t =>
      rw [ht] at h
      obtain ⟨d, -, h⟩ := Attempt.bind_eq_ok.mp h
      cases h
      refine ⟨fun q' t' d' he => ?_, hcurrent⟩
      cases he
      exact ⟨hcurrent q rfl, lt_of_idxOf? ht⟩

theorem neverMisused_readLine {m : Model} (hscope : m.Resolves scope) (hn : m.varnum ≤ n) :
    Attempt.NeverMisused (readLine scope names text current :
      Attempt ClaimError (Option (Nat × Nat × Diagram n) × Option Nat)) := by
  unfold readLine
  split
  · exact .ok _
  · exact .refuse _
  · exact .ok _
  · exact .ok _
  · exact .refuse _
  · exact .refuse _
  · next guard target q _ =>
    cases names.idxOf? target with
    | none => exact .refuse _
    | some t =>
      have hguard := (hscope.neverMisused_compileText hn guard).restate (ClaimError.badGuard guard)
      exact hguard.bind fun d _ => .ok _

end Line

/-- A line adds an edge between declared states, changes the current state, or is refused. -/
theorem Reading.addLine {m : Model} {scope : Scope} (hscope : m.Resolves scope) (hn : m.varnum ≤ n)
    {names : List String} {s : Automaton n × Option Nat} (h : Reading names s) (text : List Char) :
    Attempt.NeverMisused (addLine scope names text s) ∧
      ∀ s', NeverClaim.addLine scope names text s = .ok s' → Reading names s' := by
  obtain ⟨a, current⟩ := s
  have hread : Attempt.NeverMisused (readLine scope names text current :
      Attempt ClaimError (Option (Nat × Nat × Diagram n) × Option Nat)) :=
    neverMisused_readLine hscope hn
  cases hline : (readLine scope names text current :
      Attempt ClaimError (Option (Nat × Nat × Diagram n) × Option Nat)) with
  | error e =>
    rw [hline] at hread
    unfold NeverClaim.addLine
    rw [hline, Attempt.error_bind]
    refine ⟨fun e' he' => hread e' ?_, nofun⟩
    cases he'
    rfl
  | ok told =>
    obtain ⟨edge, next⟩ := told
    obtain ⟨hedge, hnext⟩ := bounds_of_readLine h.2 hline
    cases edge with
    | none =>
      rw [addLine_of_none hline]
      refine ⟨.ok _, fun s' hs' => ?_⟩
      cases hs'
      exact ⟨h.1, hnext⟩
    | some e =>
      obtain ⟨q, t, d⟩ := e
      obtain ⟨hq, ht⟩ := hedge q t d rfl
      have hsize : a.size = names.length := h.1
      rw [addLine_of_some hline (a.addEdge_eq_ok (hsize ▸ hq) (hsize ▸ ht) d)]
      refine ⟨.ok _, fun s' hs' => ?_⟩
      cases hs'
      exact ⟨h.1, hnext⟩

theorem neverMisused_outline (text : String) : Attempt.NeverMisused (outline text) := by
  unfold outline
  split
  · dsimp only
    split
    · exact Attempt.NeverMisused.bind (.refuse _) nofun
    split
    · exact Attempt.NeverMisused.bind (.refuse _) nofun
    exact .ok _
  · exact .refuse _

theorem neverMisused_parse {m : Model} {scope : Scope} (hscope : m.Resolves scope)
    (hn : m.varnum ≤ n) (text : String) :
    Attempt.NeverMisused (parse scope text : Attempt ClaimError (Automaton n)) := by
  apply (neverMisused_outline text).bind
  rintro ⟨lines, names⟩ -
  refine Attempt.NeverMisused.bind ?_ fun _ _ => .ok _
  refine Attempt.NeverMisused.foldlM (I := Reading names) ?_ ⟨rfl, nofun⟩
  intro s hs line _
  exact hs.addLine hscope hn line

theorem parse_of_outline {scope : Scope} {text : String} {lines : List (List Char)}
    {names : List String} {a : Automaton n} {finish : Option Nat}
    (houtline : outline text = .ok (lines, names))
    (hlines : lines.foldlM (fun s l => addLine scope names l s) (skeleton n names, none) =
      .ok (a, finish)) :
    parse scope text = .ok a := by
  unfold parse
  rw [houtline, Attempt.ok_bind]
  dsimp only
  rw [hlines]
  rfl

def endless : String := "never \x7b\naccept_init:\nskip\n\x7d"

theorem parse_endless {n : Nat} (scope : Scope) :
    parse scope endless = .ok (.loop n) := by
  have hbody : body endless = some ["accept_init:".toList, "skip".toList] := by decide +kernel
  have hlabel : Line.read "accept_init:".toList = .label "accept_init" := by decide +kernel
  have hloop : Line.read "skip".toList = .loop := by decide +kernel
  have hnames : Line.labels (["accept_init:".toList, "skip".toList].map Line.read) =
      ["accept_init"] := by
    rw [List.map, List.map, hlabel, hloop]
    rfl
  have hskeleton : skeleton n ["accept_init"] = ⟨1, [], [0], [0]⟩ := by
    have hinitial : isInitialName "accept_init" = true := by decide +kernel
    have haccepting : isAcceptingName "accept_init" = true := by decide +kernel
    simp [skeleton, hinitial, haccepting, List.finRange_succ]
  have houtline : outline endless =
      .ok (["accept_init:".toList, "skip".toList], ["accept_init"]) := by
    unfold outline
    rw [hbody]
    simp only [hnames]
    rfl
  have hfirst : addLine scope ["accept_init"] "accept_init:".toList
      (skeleton n ["accept_init"], none) = .ok (⟨1, [], [0], [0]⟩, some 0) := by
    rw [hskeleton]
    apply addLine_of_none
    unfold readLine
    rw [hlabel]
    rfl
  have hsecond : addLine scope ["accept_init"] "skip".toList
      ((⟨1, [], [0], [0]⟩ : Automaton n), some 0) = .ok (.loop n, some 0) := by
    refine addLine_of_some (q := 0) (t := 0) (d := .const true) ?_ rfl
    unfold readLine
    rw [hloop]
    rfl
  apply parse_of_outline houtline
  rw [List.foldlM_cons, hfirst, Attempt.ok_bind, List.foldlM_cons, hsecond]
  rfl

end NeverClaim
end SymbolicLtl
