/-! Beginnings and parts of texts. -/
namespace SymbolicLtl.Text

/-- What follows a given beginning. -/
def after : (start text : List Char) → Option (List Char)
  | [], text => some text
  | _ :: _, [] => none
  | c :: start, d :: text => if c = d then after start text else none

/-- A text has a beginning exactly when it is the beginning with the rest behind it. -/
theorem after_eq_some_iff {start text rest : List Char} :
    after start text = some rest ↔ text = start ++ rest := by
  fun_induction after start text with
  | case1 text => simp [eq_comm]
  | case2 => simp
  | case3 start d text ih => simp [ih]
  | case4 c start d text hne => simp [hne, eq_comm]

/-- The parts of a text between separators; there is one part more than separators. -/
def splitBy (separator : Char) : List Char → List (List Char)
  | [] => [[]]
  | c :: rest =>
    if c = separator then [] :: splitBy separator rest
    else match splitBy separator rest with
      | [] => [[c]]
      | part :: parts => (c :: part) :: parts

def cut (separator : Char) (text : List Char) : List Char × Option (List Char) :=
  (text.takeWhile (· != separator), match text.dropWhile (· != separator) with
    | [] => none
    | _ :: rest => some rest)

end SymbolicLtl.Text
