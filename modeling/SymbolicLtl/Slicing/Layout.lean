import SymbolicLtl.Slicing.Slice
import SymbolicLtl.Word

/-!
The numbering of workers: one for each pair of an automaton state and a slice, slice after slice
within a state.
-/
namespace SymbolicLtl

/-- A number of automaton states and at least one slice. -/
structure Layout where
  states : Int
  slices : List Slice
  nonempty : slices ≠ []

namespace Layout

/-- Without slices there is one, the whole state space. -/
def make (states : Int) : (slices : List Slice) → Layout
  | [] => ⟨states, [[]], by simp⟩
  | s :: rest => ⟨states, s :: rest, by simp⟩

def numSlices (l : Layout) : Nat := l.slices.length

def size (l : Layout) : Int := wordOf (l.states * l.numSlices)

/-- The worker of a slice of a state, in a word of 64 bits. -/
def id (l : Layout) (state slice : Int) : Int := wordOf (state * l.numSlices + slice)

/-- The state and the slice of a worker. Numbers that belong to no worker are divided toward
zero. -/
def owner (l : Layout) (id : Int) : Int × Int := (id.tdiv l.numSlices, id.tmod l.numSlices)

end Layout
end SymbolicLtl
