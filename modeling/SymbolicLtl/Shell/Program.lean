import SymbolicLtl.Shell.Printf
import SymbolicLtl.Shell.Test

/-! Small programs that scripts use. -/
namespace SymbolicLtl.Shell

/-- What a program can read: files by their paths, and its input. -/
structure Sources where
  file? : String → Option (List UInt8)
  input : List UInt8

def invalidOption (name letter : String) : Exit :=
  ⟨[], s!"{name}: invalid option -- '{letter}'\nTry '{name} --help' for more information.\n", 1⟩

/-- The texts of files, and complaints about those that are not there. Without names, the input. -/
def contents (name complaint : String) (src : Sources) (names : List String) :
    List UInt8 × String × Nat :=
  if names.isEmpty then (src.input, "", 0)
  else names.foldl (fun (out, err, status) a =>
    if a = "-" then (out ++ src.input, err, status)
    else match src.file? a with
      | some bs => (out ++ bs, err, status)
      | none =>
        (out, err ++ name ++ ": " ++ complaint ++ shownName a ++ ": No such file or directory\n", 1))
    ([], "", 0)

def cat (name : String) (src : Sources) (args : List String) : Exit :=
  let front := args.takeWhile (· ≠ "--")
  let isOption (a : String) : Bool := a.startsWith "-" && a.length > 1
  match ((front.filter isOption).flatMap (·.toList.drop 1)).find? (!"AbeEnstTuv".contains ·) with
  | some c => invalidOption name c.toString
  | none =>
    let names := front.filter (!isOption ·) ++ args.drop (front.length + 1)
    let (out, err, status) := contents name "" src names
    ⟨out, err, status⟩

def firstLines : (count : Nat) → List UInt8 → List UInt8
  | 0, _ | _, [] => []
  | n + 1, b :: rest => b :: firstLines (if b = 10 then n else n + 1) rest

/-- Prints the beginning of files, or of the input. -/
def head (name : String) (src : Sources) (args : List String) : Exit :=
  let number (text : String) : Nat := text.toNat?.getD 10
  let (take, names) : (List UInt8 → List UInt8) × List String := match args with
    | "-n" :: k :: rest => (firstLines (number k), rest)
    | "-c" :: k :: rest => (List.take (number k), rest)
    | a :: rest =>
      match a.toList with
      | '-' :: 'n' :: ds => (firstLines (number (String.ofList ds)), rest)
      | '-' :: 'c' :: ds => (List.take (number (String.ofList ds)), rest)
      | '-' :: d :: ds =>
        if d.isDigit then (firstLines (number (String.ofList (d :: ds))), rest)
        else (firstLines 10, args)
      | _ => (firstLines 10, args)
    | [] => (firstLines 10, [])
  let (out, err, status) := contents name "cannot open " src names
  ⟨take out, err, status⟩

/-- Prints the numbers from one to another. -/
def seq (name : String) (args : List String) : Exit :=
  let fail (text : String) : Exit :=
    ⟨[], s!"{name}: {text}\nTry '{name} --help' for more information.\n", 1⟩
  match args.find? fun a => !a.isInt with
  | some a => fail s!"invalid floating point argument: '{a}'"
  | none =>
    let count (first step last : Int) : Nat :=
      if step = 0 then 0 else ((last - first) / step + 1).toNat
    let print (first step last : Int) : Exit :=
      let lines := (List.range (count first step last)).map fun (k : Nat) =>
        toString (first + step * (k : Int)) ++ "\n"
      ⟨Text.bytes (String.join lines), "", 0⟩
    match args.map fun a => a.toInt?.getD 0 with
    | [last] => print 1 1 last
    | [first, last] => print first 1 last
    | [first, step, last] => print first step last
    | _ => fail "missing operand"

def smallProgram? (name : String) :
    Option ((calledAs : String) → Sources → List String → Exit) :=
  match name with
  | "true" | "sleep" => some fun _ _ _ => ⟨[], "", 0⟩
  | "false" => some fun _ _ _ => ⟨[], "", 1⟩
  | "echo" => some fun _ _ args => ⟨echo args, "", 0⟩
  | "printf" => some fun calledAs _ args => printf ⟨calledAs, true⟩ args
  | "cat" => some cat
  | "head" => some head
  | "seq" => some fun calledAs _ args => seq calledAs args
  | "test" => some fun calledAs src args =>
    let kind (path : String) : Option PathKind :=
      if path = "/" then some .folder else (src.file? path).map fun bs => .file bs.isEmpty
    match test kind args with
    | .ok b => ⟨[], "", if b then 0 else 1⟩
    | .error e => ⟨[], calledAs ++ ": " ++ e.programMessage shownText ++ "\n", 2⟩
  | _ => none

end SymbolicLtl.Shell
