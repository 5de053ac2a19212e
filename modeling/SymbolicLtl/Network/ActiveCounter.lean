import SymbolicLtl.Misuse

/-!
The counter by which a network of workers notices that it is done. It counts the workers that are
not waiting and the messages that were sent and not yet received.
-/
namespace SymbolicLtl

structure ActiveCounter where
  value : Int
  /-- The number of bits in which the value is kept, if it is limited. -/
  bits : Option Nat := none
deriving DecidableEq, Repr

namespace ActiveCounter

/-- Adds to the value; in a limited number of bits it goes round. -/
def shift (c : ActiveCounter) (amount : Int) : ActiveCounter :=
  { c with value := match c.bits with
      | none => c.value + amount
      | some bits => Int.bmod (c.value + amount) (Nat.pow 2 bits) }

/-- Registers work before others can see it. -/
def inc (c : ActiveCounter) : ActiveCounter := c.shift 1

/-- Withdraws a worker that is about to wait. True when nothing is left to do. -/
def done (c : ActiveCounter) : ActiveCounter × Except Misuse Bool :=
  let v := (c.shift (-1)).value
  (c.shift (-1), if v < 0 then .error (.counterBelowZero v) else .ok (v == 0))

/-- Accounts for a message received by a worker that is counted already. -/
def consume (c : ActiveCounter) : ActiveCounter × Except Misuse Unit :=
  let v := (c.shift (-1)).value
  (c.shift (-1), if v ≤ 0 then .error (.counterIdle v) else .ok ())

end ActiveCounter
end SymbolicLtl
