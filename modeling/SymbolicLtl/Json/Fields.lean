import SymbolicLtl.Json.Reader
import SymbolicLtl.Text.Quoted

/-!
Records read from objects. Members are read in their order; a member that names no field, or whose
value does not fit, is an error. Null leaves a field as it is, or empties a list or a table.
-/
namespace SymbolicLtl

inductive DecodeError where
  /-- The text is no value. -/
  | malformed
  /-- A value of another type was expected. -/
  | mistyped
  | unknownField (name : String)
deriving DecidableEq, Repr

def DecodeError.message : DecodeError → String
  | malformed | mistyped => "<json>"
  | unknownField name => "json: unknown field " ++ Text.quote name

namespace JsonValue

def foldChar (c : Char) : Char :=
  if c == '\u017f' then 's' else if c == '\u212a' then 'k' else c.toLower

/-- Names of fields are compared without case. -/
def foldName (name : String) : String := String.ofList (name.toList.map foldChar)

/-- A list that is written in place. Items beyond its length were written before and are still
there. -/
structure Slots (α : Type) where
  items : List α
  length : Nat
deriving Repr

namespace Slots

variable {α : Type}

def empty : Slots α := ⟨[], 0⟩

def toList (s : Slots α) : List α := s.items.take s.length

/-- Writes items from the front on; an item that is not given stays as it is. -/
def overlay (zero : α) : List (Option α) → List α → List α
  | [], old => old
  | x :: xs, [] => x.getD zero :: overlay zero xs []
  | x :: xs, o :: old => x.getD o :: overlay zero xs old

end Slots

/-- What a value says about an item: null says nothing. -/
def readString : JsonValue → Except DecodeError (Option String)
  | string s => .ok (some s)
  | null => .ok none
  | _ => .error .mistyped

def readBool : JsonValue → Except DecodeError (Option Bool)
  | bool b => .ok (some b)
  | null => .ok none
  | _ => .error .mistyped

def readList {α : Type} (item : JsonValue → Except DecodeError (Option α)) (zero : α)
    (old : Slots α) : JsonValue → Except DecodeError (Slots α)
  | null | array [] => .ok .empty
  | array items => return ⟨Slots.overlay zero (← items.mapM item) old.items, items.length⟩
  | _ => .error .mistyped

def setEntry (entries : List (String × String)) (key value : String) : List (String × String) :=
  if (entries.lookup key).isSome then
    entries.map fun e => if e.1 == key then (key, value) else e
  else entries ++ [(key, value)]

/-- Reads a table of texts into an earlier one. -/
def readTable (old : List (String × String)) :
    JsonValue → Except DecodeError (List (String × String))
  | null => .ok []
  | object members => members.foldlM (fun table (key, v) => do
      return setEntry table key ((← readString v).getD "")) old
  | _ => .error .mistyped

/-- How a field of a record is set from a value. -/
abbrev FieldReader (σ : Type) := σ → JsonValue → Except DecodeError σ

def readMembers {σ : Type} (fields : List (String × FieldReader σ)) (record : σ)
    (members : List (String × JsonValue)) : Except DecodeError σ :=
  members.foldlM (fun r (name, v) =>
    match fields.lookup (foldName name) with
    | some set => set r v
    | none => .error (.unknownField name)) record

/-- Reads a value into a record; null changes nothing. -/
def readRecord {σ : Type} (fields : List (String × FieldReader σ)) (record : σ) :
    JsonValue → Except DecodeError σ
  | null => .ok record
  | object members => readMembers fields record members
  | _ => .error .mistyped

end JsonValue
end SymbolicLtl
