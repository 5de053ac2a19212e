import SymbolicLtl.Json.Whole
import SymbolicLtl.Verifier.Settings

/-! The options that a request can carry. -/
namespace SymbolicLtl

structure RequestOptions where
  parallel : Bool := false
  strategy : String := ""
  forwardSlices : List Int := []
  backwardSlices : List Int := []
  executors : Int := 0
  method : String := ""
  safety : Bool := false
  extendTrans : List Int := []
deriving DecidableEq, Repr

namespace RequestOptions

/-- The options of a check; what is not given is left to earlier options. -/
def checkerOptions (o : RequestOptions) : Except Method.UnknownName (List CheckerOption) := do
  let methods ← if o.method = "" then pure []
    else (Method.ofName o.method).map fun m => [CheckerOption.method m]
  return [.parallel o.parallel] ++
    (if o.strategy = "" then [] else [.strategy o.strategy]) ++
    (if o.forwardSlices.isEmpty then [] else [.slices .forward o.forwardSlices]) ++
    (if o.backwardSlices.isEmpty then [] else [.slices .backward o.backwardSlices]) ++
    (if 0 < o.executors then [.executors o.executors] else []) ++ methods ++
    (if o.safety then [.safety] else []) ++
    (if o.extendTrans.isEmpty then [] else [.extendTrans o.extendTrans])

/-- The options while they are read. -/
structure Draft where
  parallel : Bool := false
  strategy : String := ""
  forwardSlices : JsonValue.Slots Int := .empty
  backwardSlices : JsonValue.Slots Int := .empty
  executors : Int := 0
  method : String := ""
  safety : Bool := false
  extendTrans : JsonValue.Slots Int := .empty

def Draft.toOptions (d : Draft) : RequestOptions where
  parallel := d.parallel
  strategy := d.strategy
  forwardSlices := d.forwardSlices.toList
  backwardSlices := d.backwardSlices.toList
  executors := d.executors
  method := d.method
  safety := d.safety
  extendTrans := d.extendTrans.toList

open JsonValue in
def fields : List (String × FieldReader Draft) := [
  ("parallel", fun d v => return { d with parallel := (← readBool v).getD d.parallel }),
  ("strategy", fun d v => return { d with strategy := (← readString v).getD d.strategy }),
  ("forward_slices", fun d v =>
    return { d with forwardSlices := ← readList readInt 0 d.forwardSlices v }),
  ("backward_slices", fun d v =>
    return { d with backwardSlices := ← readList readInt 0 d.backwardSlices v }),
  ("num_executors", fun d v => return { d with executors := (← readInt v).getD d.executors }),
  ("trans_method", fun d v => return { d with method := (← readString v).getD d.method }),
  ("safety", fun d v => return { d with safety := (← readBool v).getD d.safety }),
  ("extend_trans", fun d v =>
    return { d with extendTrans := ← readList readInt 0 d.extendTrans v })]

def ofValue (v : JsonValue) : Except DecodeError RequestOptions := do
  return (← JsonValue.readRecord fields {} v).toOptions

/-- Options that say nothing are left out. -/
def toValue (o : RequestOptions) : JsonValue :=
  let ints (xs : List Int) := JsonValue.array (xs.map .ofInt)
  .object <|
    (if o.parallel then [("parallel", .bool true)] else []) ++
    (if o.strategy = "" then [] else [("strategy", .string o.strategy)]) ++
    (if o.forwardSlices.isEmpty then [] else [("forward_slices", ints o.forwardSlices)]) ++
    (if o.backwardSlices.isEmpty then [] else [("backward_slices", ints o.backwardSlices)]) ++
    (if o.executors = 0 then [] else [("num_executors", .ofInt o.executors)]) ++
    (if o.method = "" then [] else [("trans_method", .string o.method)]) ++
    (if o.safety then [("safety", .bool true)] else []) ++
    (if o.extendTrans.isEmpty then [] else [("extend_trans", ints o.extendTrans)])

end RequestOptions
end SymbolicLtl
