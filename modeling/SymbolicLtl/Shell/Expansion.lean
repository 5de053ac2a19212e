import SymbolicLtl.Shell.Arithmetic
import SymbolicLtl.Shell.Pattern
import SymbolicLtl.Shell.State

/-! How words become texts: values are filled in, and what they bring is cut into words again. -/
namespace SymbolicLtl.Shell

/-- A word after values were filled in. -/
inductive Mark where
  /-- A character that may separate words, and may have a meaning in patterns. -/
  | char (c : Char) (splits quoted : Bool)
  /-- The word is there even if it is empty. -/
  | quote
  /-- A word ends here. -/
  | gap
deriving DecidableEq, Repr

namespace Mark

def ofText (quoted : Bool) (text : String) : List Mark :=
  (if quoted then [quote] else []) ++ text.toList.map (char · (!quoted) quoted)

def text (ms : List Mark) : String :=
  String.ofList (ms.filterMap fun
    | char c _ _ => some c
    | quote => none
    | gap => some ' ')

def pattern (ms : List Mark) : List PatternPart :=
  readPattern 0 (ms.filterMap fun
    | char c _ quoted => some (c, quoted)
    | _ => none)

/-- A word that is being cut: words that have ended, the last one first, the one that has been
begun, its last character first, and whether blank space has just ended a word. -/
structure Cutting where
  words : List String := []
  current : Option (List Char) := none
  afterBlank : Bool := false

def Cutting.close (k : Cutting) : Cutting :=
  match k.current with
  | some cs => ⟨String.ofList cs.reverse :: k.words, none, false⟩
  | none => { k with afterBlank := false }

/-- Cuts a word at separators. Blank ones count once; each of the others ends a word. -/
def cutStep (separators : List Char) (k : Cutting) : Mark → Cutting
  | quote => { k with current := some (k.current.getD []) }
  | gap => k.close
  | char c splits _ =>
    if splits && separators.contains c then
      if c = ' ' || c = '\t' || c = '\n' then { k.close with afterBlank := k.current.isSome || k.afterBlank }
      else if k.current.isSome then k.close
      else if k.afterBlank then { k with afterBlank := false }
      else { k with words := "" :: k.words }
    else { k with current := some (c :: k.current.getD []), afterBlank := false }

def cut (separators : List Char) (ms : List Mark) : List String :=
  (ms.foldl (cutStep separators) {}).close.words.reverse

end Mark

/-- All arguments: each a word of its own if the parameter says so. -/
def argumentMarks (s : State) (name : String) (quoted : Bool) : List Mark :=
  if name = "*" && quoted then
    let separator := match s.bindings.lookup "IFS" with
      | none => " "
      | some text => String.ofList (text.toList.take 1)
    Mark.ofText true (separator.intercalate s.args)
  else
    let each := s.args.map fun a => (if quoted then [Mark.quote] else []) ++ Mark.ofText quoted a
    (each.intersperse [.gap]).flatten

/-- Output that is filled in ends without ends of lines. -/
def filledText (bs : List UInt8) : String :=
  Text.ofBytes (((bs.filter (· ≠ 0)).reverse.dropWhile (· == 10)).reverse)

/-- Fills in one value. A word behind a parameter is a text that is read here, and `expand` fills
values into it. -/
def expandFilling (eval : Evaluator) (expand : Word → State → State × List Mark) :
    Filling → (quoted : Bool) → State → State × List Mark
  | .malformed, _, s => (s.abort "Bad substitution", [])
  | .output script, quoted, s =>
    let (t, bs) := capture eval (runText eval script) s
    ({ t with status := s.status, filled := some t.status }, Mark.ofText quoted (filledText bs))
  | .arithmetic text, quoted, s =>
    let (s, ms) := expand (readWord .document text) s
    if !s.isRunning then (s, [])
    else
      let text := Mark.text ms
      match Arithmetic.evaluate (fun x => (s.value? x).getD "") text.toList with
      | .error e => (s.abort (e.message text), [])
      | .ok (n, assigned) =>
        (assigned.reverse.foldl (fun s (x, k) => s.assign x (toString k)) s,
          Mark.ofText quoted (toString n))
  | .parameter p, quoted, s =>
    let value := s.value? p.name
    let isMissing := value.isNone || (p.orEmpty && value = some "")
    let word := if quoted then readWord .document (p.word.filter (· != '"'))
      else readWord .operand p.word
    let operand (s : State) : State × List Mark :=
      let (s, ms) := expand word s
      (s, ms.map fun
        | .char c _ q => .char c (!quoted && !q) q
        | m => m)
    let plain : List Mark :=
      if p.name = "@" || p.name = "*" then argumentMarks s p.name quoted
      else Mark.ofText quoted (value.getD "")
    let shortened (remove : List PatternPart → List Char → List Char) : State × List Mark :=
      let (s, ms) := expand (readWord .operand p.word) s
      (s, Mark.ofText quoted (String.ofList (remove (Mark.pattern ms) (value.getD "").toList)))
    let isDemanded := match p.rule with
      | .value | .length | .dropFront _ | .dropBack _ => s.demanding && isName p.name
      | _ => false
    if value.isNone && isDemanded then (s.abort (p.name ++ ": parameter not set"), [])
    else match p.rule with
    | .value => (s, plain)
    | .length => (s, Mark.ofText quoted (toString (value.getD "").utf8ByteSize))
    | .byDefault => if isMissing then operand s else (s, plain)
    | .assign =>
      if isMissing then
        let (s, ms) := operand s
        let text := Mark.text ms
        if isName p.name then (s.assign p.name text, Mark.ofText quoted text)
        else (s.abort (p.name ++ ": bad variable name"), [])
      else (s, plain)
    | .require =>
      if isMissing then
        let (s, ms) := operand s
        let standard := if p.orEmpty then "parameter not set or null" else "parameter not set"
        (s.abort (p.name ++ ": " ++ if p.word.isEmpty then standard else Mark.text ms), [])
      else (s, plain)
    | .replace => if isMissing then (s, []) else operand s
    | .dropFront longest => shortened (withoutFront longest)
    | .dropBack longest => shortened (withoutBack longest)

/-- Fills values into the pieces of a word, at most `fuel` of them inside of each other. -/
def expandPieces (eval : Evaluator) : (fuel : Nat) → Word → State → State × List Mark
  | _, [], s => (s, [])
  | fuel, .char c quoted :: w, s =>
    let (s, ms) := expandPieces eval fuel w s
    (s, .char c false quoted :: ms)
  | fuel, .quote :: w, s =>
    let (s, ms) := expandPieces eval fuel w s
    (s, .quote :: ms)
  | 0, .filling .. :: w, s => expandPieces eval 0 w s
  | fuel + 1, .filling f quoted :: w, s =>
    let (s, front) := expandFilling eval (expandPieces eval fuel) f quoted s
    if s.isRunning then
      let (s, ms) := expandPieces eval (fuel + 1) w s
      (s, front ++ ms)
    else (s, [])
termination_by fuel w => (fuel, w.length)

def expansionDepth : Nat := 64

/-- The word with its values. Nothing is left of a word that consists of all arguments if there are
none. -/
def expandMarks (eval : Evaluator) (w : Word) (s : State) : State × List Mark :=
  let isArguments : Piece → Bool
    | .quote => true
    | .filling (.parameter p) true => p.name = "@" && p.rule = .value
    | _ => false
  if s.args.isEmpty && w.all isArguments && w.any (· ≠ .quote) then (s, [])
  else expandPieces eval expansionDepth w s

def expandWords (eval : Evaluator) : List Word → State → State × List String
  | [], s => (s, [])
  | w :: ws, s =>
    let (s, ms) := expandMarks eval w s
    if s.isRunning then
      let fields := Mark.cut s.separators ms
      let (s, rest) := expandWords eval ws s
      (s, fields ++ rest)
    else (s, [])

def expandText (eval : Evaluator) (w : Word) (s : State) : State × String :=
  let (s, ms) := expandMarks eval w s
  (s, Mark.text ms)

end SymbolicLtl.Shell
