import SymbolicLtl.Counting
import SymbolicLtl.Formula.Parser
import SymbolicLtl.Diagram.Basic
import SymbolicLtl.Word

/-!
Scopes give a meaning to names: a name is a variable with a current and a next value, or an
abbreviation of a formula. In a scope a formula is a Boolean function.
-/
namespace SymbolicLtl

inductive Binding where
  | variable (current next : Int)
  | define (formula : Formula)
deriving Repr

/-- Why a formula has no meaning in a scope, or a name is not accepted by it. -/
inductive ScopeError where
  | unknown (name : String)
  | unknownNext (name : String)
  | redeclared (name : String)
  | recursiveDefine (name : String)
  | unknownOperator (code : Int)
deriving DecidableEq, Repr

namespace ScopeError

def message : ScopeError → String
  | unknown name => "expr: unknown identifier: " ++ name
  | unknownNext name => "expr: unknown identifier: next(" ++ name ++ ")"
  | redeclared name => "expr: identifier declared twice: " ++ name
  | recursiveDefine name => "expr: recursive define: " ++ name
  | unknownOperator code => s!"expr: unknown operator Op({code})"

end ScopeError

/-- Names with their meanings, in the order of their declaration. -/
structure Scope where
  entries : List (String × Binding)
deriving Repr

namespace Scope

def empty : Scope := ⟨[]⟩

def lookup (s : Scope) (name : String) : Option Binding := s.entries.lookup name

def bind (s : Scope) (name : String) (b : Binding) : Except ScopeError Scope :=
  match s.lookup name with
  | some _ => .error (.redeclared name)
  | none => .ok ⟨s.entries ++ [(name, b)]⟩

/-- Adds a variable with the diagram variables of its current and its next value. -/
def declare (s : Scope) (name : String) (current next : Int) : Except ScopeError Scope :=
  s.bind name (.variable current next)

def define (s : Scope) (name : String) (f : Formula) : Except ScopeError Scope :=
  s.bind name (.define f)

/-- The diagram variables of the current and the next value of the variable with index `i`. -/
def slotOf (i : Int) : Int × Int := (2 * i, 2 * i + 1)

/-- The same in words of 64 bits, for an index that may belong to no variable. -/
def slotWords (i : Int) : Int × Int := (wordOf (slotOf i).1, wordOf (slotOf i).2)

/-- Variables, each with the diagram variables of its index. -/
def ofVars (names : List String) : Except ScopeError Scope :=
  names.zipIdx.foldlM (fun s (name, i) => s.declare name (slotOf i).1 (slotOf i).2) empty

/-- The diagram variables of the current and the next value of a variable. -/
def positions (s : Scope) (name : String) : Option (Int × Int) :=
  match s.lookup name with
  | some (.variable current next) => some (current, next)
  | _ => none

/-- The variables, ordered by their names. -/
def vars (s : Scope) : List String :=
  (s.entries.filterMap fun (name, b) => match b with
    | .variable .. => some name
    | .define _ => none).mergeSort fun a b => decide (a ≤ b)

def unexpanded (s : Scope) (expanding : List String) : Nat :=
  s.entries.countP fun e => !expanding.contains e.1

theorem unexpanded_cons_lt {s : Scope} {expanding : List String} {x : String} {b : Binding}
    (hb : s.lookup x = some b) (hx : expanding.contains x = false) :
    s.unexpanded (x :: expanding) < s.unexpanded expanding := by
  obtain ⟨c, hc⟩ : ∃ c, (x, c) ∈ s.entries := by
    obtain ⟨l₁, l₂, h, _⟩ := List.lookup_eq_some_iff.mp hb
    exact ⟨b, by simp [h]⟩
  refine countP_lt_countP (fun e _ he => ?_) hc (by simpa using hx) (by simp)
  simp_all

/-- The function of a formula, and the abbreviations that are being expanded after it. One that is met
is added to them while its formula is compiled and removed again whatever comes of it, so that they are
those on the way to the formula. -/
def compileFrom {n : Nat} (s : Scope) (expanding : List String) :
    Formula → { r : Attempt ScopeError (Diagram n) × List String // r.2 = expanding }
  | .const v => ⟨(return .const v, expanding), rfl⟩
  | .ident x =>
    match _h : s.lookup x with
    | some (.variable current _) =>
      ⟨(do return .var (← Attempt.ofMisuse (Diagram.checkVar n current)), expanding), rfl⟩
    | some (.define f) =>
      if _hx : expanding.contains x then ⟨(Attempt.refuse (.recursiveDefine x), expanding), rfl⟩
      else
        let ⟨(r, after), h⟩ := s.compileFrom (x :: expanding) f
        ⟨(r, after.erase x), (congrArg (List.erase · x) h).trans (List.erase_cons_head x _)⟩
    | none => ⟨(Attempt.refuse (.unknown x), expanding), rfl⟩
  | .next x =>
    match s.lookup x with
    | some (.variable _ next) =>
      ⟨(do return .var (← Attempt.ofMisuse (Diagram.checkVar n next)), expanding), rfl⟩
    | _ => ⟨(Attempt.refuse (.unknownNext x), expanding), rfl⟩
  | .not a =>
    let ⟨(r, after), h⟩ := s.compileFrom expanding a
    ⟨(return (← r).not, after), h⟩
  | .binary op a b =>
    match s.compileFrom expanding a with
    | ⟨(.error e, after), h⟩ => ⟨(.error e, after), h⟩
    | ⟨(.ok l, after), h⟩ =>
      have _hsame : s.unexpanded after = s.unexpanded expanding := congrArg s.unexpanded h
      let ⟨(r, after'), h'⟩ := s.compileFrom after b
      ⟨(return .combine op.eval l (← r), after'), h'.trans h⟩
termination_by f => (s.unexpanded expanding, f)
decreasing_by
  · exact Prod.Lex.left _ _ (unexpanded_cons_lt _h (by simpa using _hx))
  · exact Prod.Lex.right _ (by simp +arith)
  · exact Prod.Lex.right _ (by simp +arith)
  · rw [_hsame]
    exact Prod.Lex.right _ (by simp +arith)

def compile {n : Nat} (s : Scope) (f : Formula) : Attempt ScopeError (Diagram n) :=
  (s.compileFrom [] f).val.1

end Scope

inductive FormulaError where
  | malformed (error : SyntaxError)
  | meaningless (error : ScopeError)
deriving DecidableEq, Repr

def FormulaError.message : FormulaError → String
  | malformed e => e.message
  | meaningless e => e.message

def Scope.compileText {n : Nat} (s : Scope) (text : String) : Attempt FormulaError (Diagram n) := do
  let f ← Attempt.ofRefusal ((Formula.parse text).mapError .malformed)
  (s.compile f).restate .meaningless

end SymbolicLtl
