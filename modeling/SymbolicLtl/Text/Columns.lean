/-!
Text in columns. A tab ends a cell, and the cells of a column that stand in consecutive lines are
padded to the same width. The last cell of a line is not padded.
-/
namespace SymbolicLtl.Text

/-- A line under way: what is laid out already, and the cells that follow. -/
structure Row where
  done : List Char
  cells : List (List Char)
deriving DecidableEq, Repr

namespace Row

/-- A row has another column unless only its last cell is left. -/
def hasColumn (r : Row) : Bool := 2 ≤ r.cells.length

def firstWidth (r : Row) : Nat := (r.cells.headD []).length

def advance (width : Nat) (r : Row) : Row :=
  match r.cells with
  | [] => r
  | c :: rest => ⟨r.done ++ c ++ List.replicate (width - c.length) ' ', rest⟩

/-- Lays out the next cells of consecutive rows that all have or all lack a further column. -/
def advanceRun (minWidth : Nat) (rows : List Row) : List Row :=
  if (rows.head?.map hasColumn).getD false then
    rows.map (advance (rows.foldl (fun w r => max w r.firstWidth) minWidth))
  else rows

def advanceAll (minWidth : Nat) (rows : List Row) : List Row :=
  (rows.splitBy fun a b => a.hasColumn == b.hasColumn).flatMap (advanceRun minWidth)

def layout (minWidth : Nat) (rows : List Row) : List (List Char) :=
  let columns := rows.foldl (fun m r => max m r.cells.length) 0
  (Nat.repeat (advanceAll minWidth) columns rows).map fun r => r.done ++ r.cells.flatten

end Row

/-- The lines of a text as lists of cells, in blocks of lines that are laid out together. Tabs end
cells and line ends end lines; a form feed ends a block too. -/
def blocks : List Char → List (List (List (List Char)))
  | [] => [[[[]]]]
  | c :: rest =>
    match blocks rest with
    | ((cell :: cells) :: lines) :: more =>
      if c == '\t' || c == '\x0b' then (([] :: cell :: cells) :: lines) :: more
      else if c == '\n' then ([[]] :: (cell :: cells) :: lines) :: more
      else if c == '\x0c' then [[[]]] :: ((cell :: cells) :: lines) :: more
      else (((c :: cell) :: cells) :: lines) :: more
    | other => other

/-- Lays a text out in columns that are at least `minWidth` wide. -/
def columns (minWidth : Nat) (text : String) : String :=
  let lines := (blocks text.toList).flatMap fun block => Row.layout minWidth (block.map (⟨[], ·⟩))
  "\n".intercalate (lines.map String.ofList)

end SymbolicLtl.Text
