import SymbolicLtl.Model.Basic

/-! Models as values of the data format. -/
namespace SymbolicLtl.Model

/-- The fields of a model while it is read. -/
structure Draft where
  vars : JsonValue.Slots String := .empty
  init : String := ""
  next : List (String × String) := []
  trans : JsonValue.Slots String := .empty
  defines : List (String × String) := []
  fairness : JsonValue.Slots String := .empty
  ltlspec : String := ""

def Draft.toModel (d : Draft) : Model where
  vars := d.vars.toList
  init := d.init
  next := d.next
  trans := d.trans.toList
  defines := d.defines
  fairness := d.fairness.toList
  ltlspec := d.ltlspec

open JsonValue in
def fields : List (String × FieldReader Draft) := [
  ("vars", fun d v => return { d with vars := ← readList readString "" d.vars v }),
  ("init", fun d v => return { d with init := (← readString v).getD d.init }),
  ("next", fun d v => return { d with next := ← readTable d.next v }),
  ("trans", fun d v => return { d with trans := ← readList readString "" d.trans v }),
  ("defines", fun d v => return { d with defines := ← readTable d.defines v }),
  ("fairness", fun d v => return { d with fairness := ← readList readString "" d.fairness v }),
  ("ltlspec", fun d v => return { d with ltlspec := (← readString v).getD d.ltlspec })]

def ofValue (v : JsonValue) : Except ModelError Model := do
  let d ← (JsonValue.readRecord fields {} v).mapError .unreadable
  d.toModel.validate
  return d.toModel

def load (text : String) : Except ModelError Model :=
  match JsonValue.parse? text with
  | some v => ofValue v
  | none => .error (.unreadable .malformed)

def toValue (m : Model) : JsonValue :=
  let list (xs : List String) := JsonValue.array (xs.map .string)
  let table (xs : List (String × String)) := JsonValue.object (xs.map fun x => (x.1, .string x.2))
  .object [("vars", list m.vars), ("init", .string m.init), ("next", table m.next),
    ("trans", list m.trans), ("defines", table m.defines), ("fairness", list m.fairness),
    ("ltlspec", .string m.ltlspec)]

end SymbolicLtl.Model
