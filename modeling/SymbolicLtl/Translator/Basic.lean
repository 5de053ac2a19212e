import SymbolicLtl.Automaton.NeverClaim
import SymbolicLtl.Log

/-!
Translators turn a temporal formula into a never claim. The formula that is handed to a translator
is the negation of a property under assumptions.
-/
namespace SymbolicLtl

/-- How a time limit on a call ends it. -/
inductive Ending where
  | deadlineExceeded
  | canceled
deriving DecidableEq, Repr

namespace Ending

def message : Ending → String
  | deadlineExceeded => "context deadline exceeded"
  | canceled => "context canceled"

/-- How a call ends that is stopped by its caller or after some time; a time that is not positive
is no limit. -/
def within (caller : Option Ending) (limit : Int) : Option Ending :=
  caller <|> if 0 < limit then some deadlineExceeded else none

end Ending

/-- Why there is no automaton of a formula. -/
inductive TranslatorError where
  /-- The translator reports a failure. -/
  | failed (reason : String)
  /-- The call ended before the translator did; the report may say that the translator failed. -/
  | ended (ending : Ending) (reported : Bool)
  | badClaim (error : ClaimError)
  | other (text : String)
deriving DecidableEq, Repr

namespace TranslatorError

def isReported : TranslatorError → Bool
  | failed _ | badClaim _ => true
  | ended _ reported => reported
  | other _ => false

def reason : TranslatorError → String
  | failed reason => reason
  | ended e _ => e.message
  | badClaim e => e.message
  | other text => text

def message (e : TranslatorError) : String :=
  if e.isReported then "ltl: translator failed: " ++ e.reason else e.reason

end TranslatorError

structure TranslatorAnswer where
  claim : Except TranslatorError String
  events : List Event

/-- A translator is given the way in which the call will end if it has to wait, and the formula. -/
abbrev Translator := Option Ending → String → TranslatorAnswer

namespace Translator

def constant (claim : String) : Translator := fun _ _ => ⟨.ok claim, []⟩

def broken (text : String) : Translator := fun _ _ => ⟨.error (.other text), []⟩

/-- Waits until the call is ended. -/
def waiting (reported : Bool) : Translator := fun ending _ =>
  ⟨.error (.ended (ending.getD .deadlineExceeded) reported), []⟩

end Translator

/-- The negation of a property under the assumptions that constraints hold always and fairness
conditions hold again and again. Constraints may speak of next values. -/
def negatedSpec (spec : String) (fairness trans : List Formula) : String :=
  let assumptions := trans.map (fun f => "([] " ++ f.renderLtl ++ ")") ++
    fairness.map (fun f => "([]<> " ++ f.renderLtl ++ ")")
  if assumptions.isEmpty then "!(" ++ spec ++ ")"
  else "!((" ++ " && ".intercalate assumptions ++ ") -> (" ++ spec ++ "))"

def TranslatorAnswer.automaton {n : Nat} (t : TranslatorAnswer) (scope : Scope) :
    Attempt TranslatorError (Automaton n) := do
  let claim ← Attempt.ofRefusal t.claim
  (NeverClaim.parse scope claim).restate .badClaim

end SymbolicLtl
