import SymbolicLtl.Emptiness.Response
import SymbolicLtl.Model.Text
import SymbolicLtl.Service.Options

/-! Requests for checks and the answers to them, as values on the wire. -/
namespace SymbolicLtl

inductive RequestError where
  | missingModel
  | model (error : ModelError)
  | options (error : DecodeError)
  | method (error : Method.UnknownName)
deriving DecidableEq, Repr

def RequestError.message : RequestError → String
  | missingModel => "service: invalid request: missing model"
  | model e => e.message
  | options e => "service: invalid request: options: " ++ e.message
  | method e => "service: invalid request: " ++ e.message

structure Request where
  model : Model
  options : RequestOptions
deriving DecidableEq, Repr

namespace Request

def toValue (r : Request) : JsonValue :=
  .object [("model", r.model.toValue), ("options", r.options.toValue)]

/-- A member that is an object. -/
def objectMember? (v : JsonValue) (name : String) : Option JsonValue :=
  match v.member? name with
  | some (.object members) => some (JsonValue.object members).sortMembers
  | _ => none

/-- Members of an object are read in the order of their names. -/
def ofValue (v : JsonValue) : Except RequestError Request := do
  let some m := objectMember? v "model" | throw .missingModel
  let model ← (Model.ofValue m).mapError .model
  match objectMember? v "options" with
  | none => return ⟨model, {}⟩
  | some o => return ⟨model, ← (RequestOptions.ofValue o).mapError .options⟩

end Request

/-- What a client learns from an answer. -/
structure CheckResult where
  holds : Bool
  elapsed : Decimal
  message : String
  violating : List Int
deriving DecidableEq, Repr

namespace CheckResult

/-- The result of a check that took the given time, which is written as text too. -/
def ofResponse (r : Response) (elapsed : Decimal) (elapsedText : String) :
    Except Misuse CheckResult :=
  return ⟨r.holds, elapsed, ← r.describe elapsedText, r.violating⟩

def toValue (r : CheckResult) : JsonValue :=
  .object [("holds", .bool r.holds), ("elapsed_ms", .number r.elapsed),
    ("message", .string r.message), ("violating", .array (r.violating.map .ofInt))]

/-- A member that is missing or has another type is empty. -/
def ofValue (v : JsonValue) : CheckResult where
  holds := match v.member? "holds" with
    | some (.bool b) => b
    | _ => false
  elapsed := match v.member? "elapsed_ms" with
    | some (.number x) => x
    | _ => ⟨0, 0⟩
  message := match v.member? "message" with
    | some (.string s) => s
    | _ => ""
  violating := match v.member? "violating" with
    | some (.array items) => items.map fun item => match item with
      | .number x => (Double.ofDecimal x).truncate
      | _ => 0
    | _ => []

end CheckResult
end SymbolicLtl
