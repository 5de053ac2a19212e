import SymbolicLtl.Text.Bytes
import SymbolicLtl.Shell.Floating

/-! The two commands that print their arguments: `echo`, and `printf` with its formats. -/
namespace SymbolicLtl.Shell

structure Exit where
  out : List UInt8
  err : String
  status : Nat

/-- The byte that a letter after a backslash stands for. -/
def escapedByte : Char → Option UInt8
  | 'a' => some 7
  | 'b' => some 8
  | 'f' => some 12
  | 'n' => some 10
  | 'r' => some 13
  | 't' => some 9
  | 'v' => some 11
  | '\\' => some 92
  | _ => none

/-- Which escapes are known. -/
structure Escapes where
  /-- Numbers in base 16 after an `x`. -/
  hex : Bool
  /-- A zero in front of three digits of base 8. -/
  leadingZero : Bool
  /-- The quotation mark. -/
  mark : Bool

/-- The byte of the escape whose text behind the backslash is given, and the length of that text. -/
def Escapes.read (e : Escapes) (cs : List Char) : Option (UInt8 × Nat) :=
  match digits 8 (if e.leadingZero && cs.head? == some '0' then 4 else 3) cs, cs with
  | [], 'x' :: rest =>
    match digits 16 2 rest with
    | [] => none
    | ds => if e.hex then some ((digitsValue 16 ds).toUInt8, ds.length + 1) else none
  | [], c :: _ => if e.mark && c = '"' then some (34, 1) else (escapedByte c).map (·, 1)
  | [], [] => none
  | ds, _ => some ((digitsValue 8 ds).toUInt8, ds.length)

/-- A text with its escapes replaced; what is no escape stays. The flag tells whether the text goes
on: `\c` ends all output. The first `skip` characters were read already. -/
def Escapes.replace (e : Escapes) : (skip : Nat) → List Char → List UInt8 × Bool
  | _, [] => ([], true)
  | k + 1, _ :: rest => e.replace k rest
  | 0, c :: rest =>
    if c = '\\' && rest.head? == some 'c' then ([], false)
    else
      match if c = '\\' then e.read rest else none with
      | some (b, k) =>
        let (text, more) := e.replace k rest
        (b :: text, more)
      | none =>
        let (text, more) := e.replace 0 rest
        (Text.bytes c.toString ++ text, more)

/-- Prints words with blanks between them. Options in front of the words omit the line end (`n`) and
turn escapes on and off (`e`, `E`). -/
def echo (args : List String) : List UInt8 :=
  let isOption (a : String) : Bool := match a.toList with
    | '-' :: c :: cs => (c :: cs).all ['n', 'e', 'E'].contains
    | _ => false
  let options := ((args.takeWhile isOption).map fun a => a.toList.drop 1).flatten
  let words := " ".intercalate (args.dropWhile isOption)
  let escapes := options.foldl (fun on c => c == 'e' || (c != 'E' && on)) false
  let line : List UInt8 := if options.contains 'n' then [] else [10]
  if escapes then
    let (text, more) := Escapes.replace ⟨true, true, false⟩ 0 words.toList
    text ++ if more then line else []
  else Text.bytes words ++ line

/-- Prints words with their escapes replaced. The first word may say that no line ends. -/
def plainEcho (args : List String) : List UInt8 :=
  let words := if args.head? = some "-n" then args.drop 1 else args
  let (text, more) := Escapes.replace ⟨false, true, false⟩ 0 (" ".intercalate words).toList
  text ++ if more && args.head? ≠ some "-n" then [10] else []

/-- A number that a format gives, or that is taken from the arguments. -/
inductive Measure where
  | given (n : Nat)
  | argument

structure Directive where
  flags : List Char
  width : Measure
  precision : Option Measure
  kind : Option Char

inductive FormatPart where
  | byte (b : UInt8)
  | directive (d : Directive) (text : String)
  | stop
  /-- An escape that ends the output with an error. -/
  | fault (reason : String)

def takeMeasure : List Char → Measure × List Char
  | '*' :: rest => (.argument, rest)
  | cs => (.given (digitsValue 10 (digits 10 cs.length cs)), cs.dropWhile Char.isDigit)

/-- The directive behind a percent sign, and its length. A program takes letters for the size of a
number that have no effect. -/
def readDirective (isProgram : Bool) (cs : List Char) : Directive × Nat :=
  let isFlag (c : Char) : Bool := ['-', '+', ' ', '0', '#'].contains c
  let (width, rest) := takeMeasure (cs.dropWhile isFlag)
  let (precision, rest) : Option Measure × List Char := match rest with
    | '.' :: rest => let (m, rest) := takeMeasure rest; (some m, rest)
    | _ => (none, rest)
  let rest := if isProgram then rest.dropWhile ['h', 'l', 'L', 'j', 'z', 't'].contains else rest
  (⟨cs.takeWhile isFlag, width, precision, rest.head?⟩, cs.length - (rest.drop 1).length)

/-- The parts of a format, the first `skip` characters of which were read already. -/
def formatParts (isProgram : Bool) : (skip : Nat) → List Char → List FormatPart
  | _, [] => []
  | k + 1, _ :: rest => formatParts isProgram k rest
  | 0, '%' :: '%' :: rest => .byte 37 :: formatParts isProgram 1 ('%' :: rest)
  | 0, '%' :: rest =>
    let (d, length) := readDirective isProgram rest
    .directive d (String.ofList ('%' :: rest.take length)) :: formatParts isProgram length rest
  | 0, c :: rest =>
    if c = '\\' && isProgram && rest.head? == some 'c' then [.stop]
    else if c = '\\' && isProgram && rest.head? == some 'x' && (digits 16 1 (rest.drop 1)).isEmpty
    then [.fault "missing hexadecimal number in escape"]
    else
      match if c = '\\' then Escapes.read ⟨isProgram, false, isProgram⟩ rest else none with
      | some (b, k) => .byte b :: formatParts isProgram k rest
      | none => (Text.bytes c.toString).map .byte ++ formatParts isProgram 0 rest

/-- What an argument is read as: a number, and whether there was one, whether that is all of the
argument, and whether it has the size of a word. -/
structure Reading (α : Type) where
  value : α
  isNumber : Bool := true
  isWhole : Bool := true
  isInRange : Bool := true
  /-- What follows a quoted character. -/
  ignored : String := ""

/-- The byte behind a quotation mark. -/
def quotedByte? (arg : String) : Option (Nat × String) :=
  match arg.toList with
  | c :: rest =>
    if c = '\'' || c = '"' then match Text.bytes (String.ofList rest) with
      | b :: more => some (b.toNat, Text.ofBytes more)
      | [] => none
    else none
  | [] => none

def readNumber (isSigned : Bool) (arg : String) : Reading Int :=
  match arg.toList, quotedByte? arg with
  | [], _ => { value := 0 }
  | _, some (b, rest) => { value := b, ignored := rest }
  | cs, none =>
    let (sign, cs) := Text.takeSign (cs.dropWhile Char.isWhitespace)
    let (base, number) := announcedBase cs
    match digits base number.length number with
    | [] => { value := 0, isNumber := false }
    | ds =>
      let n := sign * digitsValue base ds
      let word := if isSigned then clampSigned n
        else clamp (-18446744073709551615) 18446744073709551615 n
      let bounded := if n = word then word else if isSigned then word else 18446744073709551615
      { value := bounded, isWhole := ds.length = number.length, isInRange := n = word }

def readFraction (p : Precision) (arg : String) : Reading Floating :=
  match arg.toList, quotedByte? arg with
  | [], _ => { value := {} }
  | _, some (b, rest) => { value := ⟨false, .fraction b 1⟩, ignored := rest }
  | cs, none =>
    match readFloating p cs with
    | none => { value := {}, isNumber := false }
    | some r => { value := r.number, isWhole := r.isWhole, isInRange := r.isInRange }

def fill (left : Bool) (filler : UInt8) (width : Nat) (text : List UInt8) : List UInt8 :=
  let missing := List.replicate (width - text.length) filler
  if left then text ++ missing else missing ++ text

/-- How a number is written: the base, and capital letters or small ones. -/
def showNumber (d : Directive) (kind : Char) (width : Nat) (precision : Option Nat) (n : Int) :
    List UInt8 :=
  let isSigned := kind = 'd' || kind = 'i'
  let base := if kind = 'o' then 8 else if kind = 'x' || kind = 'X' then 16 else 10
  let size := if isSigned then n.natAbs else (n % 18446744073709551616).toNat
  let plain := (Nat.toDigits base size).map fun c => if kind = 'X' then c.toUpper else c
  let plain := if precision = some 0 && size = 0 then []
    else List.replicate ((precision.getD 1) - plain.length) '0' ++ plain
  let mark : List Char :=
    if isSigned then
      if n < 0 then ['-'] else if d.flags.contains '+' then ['+']
      else if d.flags.contains ' ' then [' '] else []
    else if d.flags.contains '#' && base = 16 && size ≠ 0 then ['0', kind]
    else if d.flags.contains '#' && base = 8 && plain.head? ≠ some '0' then ['0'] else []
  let left := d.flags.contains '-'
  let zeros := if d.flags.contains '0' && !left && precision.isNone
    then List.replicate (width - mark.length - plain.length) '0' else []
  fill left 32 width (Text.bytes (String.ofList (mark ++ zeros ++ plain)))

def showFloating (p : Precision) (d : Directive) (kind : Char) (width : Nat)
    (precision : Option Nat) (x : Floating) : List UInt8 :=
  let text := x.write p kind precision (d.flags.contains '#')
  let mark := if x.negative then "-" else if d.flags.contains '+' then "+"
    else if d.flags.contains ' ' then " " else ""
  let left := d.flags.contains '-'
  let isFinite := match x.magnitude with
    | .fraction .. => true
    | _ => false
  let zeros := if d.flags.contains '0' && !left && isFinite
    then List.replicate (width - mark.length - text.length) '0' else []
  let base := if isFinite && kind.toLower = 'a' then 2 else 0
  let (front, back) := (text.toList.take base, text.toList.drop base)
  fill left 32 width (Text.bytes (mark ++ String.ofList (front ++ zeros ++ back)))

/-- What has been printed, what is left of the arguments, and whether printing goes on. -/
structure Printing where
  out : Array UInt8 := #[]
  err : String := ""
  status : Nat := 0
  args : List String
  goesOn : Bool := true

structure Speaker where
  name : String
  /-- The command is a program and not part of the interpreter. -/
  isProgram : Bool

/-- A byte as programs show it in quotes. -/
def shownByte (b : UInt8) : String :=
  if b = 39 then "\\'"
  else if b = 92 then "\\\\"
  else if b = 10 then "\\n"
  else if b = 9 then "\\t"
  else if 32 ≤ b && b < 127 then (Char.ofNat b.toNat).toString
  else
    let octal := Nat.toDigits 8 b.toNat
    "\\" ++ String.ofList (List.replicate (3 - octal.length) '0' ++ octal)

/-- A text as programs show it in messages. -/
def shownText (text : String) : String :=
  "'" ++ String.join ((Text.bytes text).map shownByte) ++ "'"

def Speaker.quoted (s : Speaker) (text : String) : String :=
  if s.isProgram then shownText text else text

/-- Programs compute with more digits than the interpreter. -/
def Speaker.precision (s : Speaker) : Precision :=
  if s.isProgram then ⟨64, -16445, 16384⟩ else ⟨53, -1074, 1024⟩

/-- Bytes in quotes. Those that cannot be shown stand in quotes of another kind; `plain` tells which
kind has been opened. -/
def quotedBytes : (plain : Bool) → List UInt8 → String
  | _, [] => "'"
  | plain, b :: rest =>
    let isShown := 32 ≤ b && b < 127
    let turn := if plain = isShown then "" else if isShown then "''" else "'$'"
    turn ++ (if isShown && b ≠ 39 then (Char.ofNat b.toNat).toString
      else if isShown then "'\\''" else shownByte b) ++ quotedBytes isShown rest

/-- A name as programs show it: in quotes if a script would need them. -/
def shownName (name : String) : String :=
  let special (c : Char) : Bool := "!\"#$&'()*;<=>?[\\]^`\x7b|\x7d~ ".contains c
  let bs := Text.bytes name
  if bs.any fun b => b < 32 || 127 ≤ b then "'" ++ quotedBytes true bs
  else if name.contains '\'' then "\"" ++ name ++ "\""
  else if name.isEmpty || name.toList.any special then "'" ++ name ++ "'"
  else name

/-- Notes what is wrong with an argument that was read. -/
def Speaker.note {α : Type} (s : Speaker) (arg : String) (r : Reading α) (p : Printing) :
    Printing :=
  let fail (why : String) : Printing :=
    { p with err := p.err ++ s.name ++ ": " ++ s.quoted arg ++ ": " ++ why ++ "\n", status := 1 }
  if !r.isNumber then
    fail (if s.isProgram then "expected a numeric value" else "expected numeric value")
  else if !r.isInRange then fail "Numerical result out of range"
  else if !r.isWhole then
    fail (if s.isProgram then "value not completely converted" else "not completely converted")
  else if s.isProgram && r.ignored ≠ "" then
    { p with err := p.err ++ s.name ++ ": warning: " ++ r.ignored
        ++ ": character(s) following character constant have been ignored\n" }
  else p

def measure (s : Speaker) (p : Printing) : Measure → Int × Printing
  | .given n => (n, p)
  | .argument =>
    let arg := p.args.headD ""
    let r := readNumber true arg
    (r.value, s.note arg r { p with args := p.args.drop 1 })

/-- A program accepts a flag or a precision only where it has a meaning. -/
def Directive.isAccepted (d : Directive) (kind : Char) (text : String) : Bool :=
  if kind = 'b' || kind = 'q' then text.length = 2
  else !(d.flags.contains '#' && ['c', 'd', 'i', 's', 'u'].contains kind)
    && !(d.flags.contains '0' && ['c', 's'].contains kind)
    && !(d.precision.isSome && kind = 'c')

def Directive.print (s : Speaker) (d : Directive) (text : String) (p : Printing) : Printing :=
  let (width, p) := measure s p d.width
  let (precision, p) : Option Nat × Printing := match d.precision with
    | none => (none, p)
    | some m => let (k, p) := measure s p m; (if k < 0 then none else some k.toNat, p)
  let d := if width < 0 then { d with flags := '-' :: d.flags } else d
  let arg := p.args.headD ""
  let next := { p with args := p.args.drop 1 }
  let put (bs : List UInt8) : Printing :=
    { next with out := p.out ++ fill (d.flags.contains '-') 32 width.natAbs bs }
  let shortened (bs : List UInt8) : List UInt8 := match precision with
    | some k => bs.take k
    | none => bs
  match d.kind with
  | some kind =>
    if s.isProgram && !d.isAccepted kind text then invalid p
    else if kind = 's' then put (shortened (Text.bytes arg))
    else if kind = 'c' then put (((Text.bytes arg) ++ [0]).take 1)
    else if kind = 'b' then
      let (bs, more) := Escapes.replace ⟨s.isProgram, true, s.isProgram⟩ 0 arg.toList
      { put (shortened bs) with goesOn := more }
    else if kind = 'q' && s.isProgram then put (Text.bytes (shownName arg))
    else if ['d', 'i', 'o', 'u', 'x', 'X'].contains kind then
      let r := readNumber (kind = 'd' || kind = 'i') arg
      { s.note arg r next with out := p.out ++ showNumber d kind width.natAbs precision r.value }
    else if ['a', 'A', 'e', 'E', 'f', 'F', 'g', 'G'].contains kind then
      let r := readFraction s.precision arg
      { s.note arg r next with
        out := p.out ++ showFloating s.precision d kind width.natAbs precision r.value }
    else invalid p
  | none => invalid p
where
  invalid (p : Printing) : Printing :=
    let reason :=
      if s.isProgram then text ++ ": invalid conversion specification\n"
      else if d.kind.isNone then "missing format character\n"
      else text ++ ": invalid directive\n"
    { p with
      err := p.err ++ s.name ++ ": " ++ reason
      status := if s.isProgram then 1 else 2
      goesOn := false }

/-- One pass over a format. -/
def printParts (s : Speaker) : List FormatPart → Printing → Printing
  | [], p => p
  | part :: parts, p =>
    if !p.goesOn then p
    else match part with
      | .byte b => printParts s parts { p with out := p.out.push b }
      | .directive d text => printParts s parts (d.print s text p)
      | .stop => { p with goesOn := false }
      | .fault reason =>
        { p with err := p.err ++ s.name ++ ": " ++ reason ++ "\n", status := 1, goesOn := false }

/-- Uses a format again as long as it takes arguments and there are some. -/
def printAll (s : Speaker) (parts : List FormatPart) (p : Printing) : Printing :=
  let q := printParts s parts p
  if _h : q.args.length < p.args.length ∧ q.args ≠ [] ∧ q.goesOn then printAll s parts q else q
termination_by p.args.length
decreasing_by exact _h.1

def printf (s : Speaker) (args : List String) : Exit :=
  match if args.head? = some "--" then args.drop 1 else args with
  | [] =>
    if s.isProgram then
      ⟨[], "printf: missing operand\nTry 'printf --help' for more information.\n", 1⟩
    else ⟨[], s.name ++ ": usage: printf format [arg ...]\n", 2⟩
  | fmt :: args =>
    let p := printAll s (formatParts s.isProgram 0 fmt.toList) { args := args }
    ⟨p.out.toList, p.err, p.status⟩

end SymbolicLtl.Shell
