/-! Values of the data format in which models and requests are written. -/
namespace SymbolicLtl

/-- The number `mantissa * 10 ^ exponent`. -/
structure Decimal where
  mantissa : Int
  exponent : Int
deriving DecidableEq, Repr

/-- A value with its numbers as they are written and its members in the order of the text. -/
inductive JsonValue where
  | null
  | bool (value : Bool)
  | number (value : Decimal)
  | string (value : String)
  | array (items : List JsonValue)
  | object (members : List (String × JsonValue))
deriving Inhabited, Repr

namespace JsonValue

def ofInt (n : Int) : JsonValue := number ⟨n, 0⟩

def members? : JsonValue → Option (List (String × JsonValue))
  | object members => some members
  | _ => none

/-- The last member of an object that has the given name. -/
def member? (v : JsonValue) (name : String) : Option JsonValue := do
  (← v.members?).reverse.lookup name

end JsonValue
end SymbolicLtl
