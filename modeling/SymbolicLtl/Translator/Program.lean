import SymbolicLtl.Files
import SymbolicLtl.Translator.Basic

/-!
Translators that are programs. The formula is the last argument, and the claim is what the program
prints.
-/
namespace SymbolicLtl

/-- How the attempt to run a program ends. -/
inductive ProgramOutcome where
  | finished (out err : String) (status : Nat)
  /-- A signal with this number ended the program. -/
  | stopped (signal : Nat) (err : String)
  /-- There is no name of a program. -/
  | noCommand
  /-- No program has this name. -/
  | notFound
  /-- The name is that of a folder. -/
  | isFolder
  /-- The program at a path cannot be started. -/
  | notLaunched (path : String) (reason : PathError)
  /-- The call was over before the program was started. -/
  | notStarted (ending : Ending)
deriving DecidableEq, Repr

def ProgramOutcome.isStarted : ProgramOutcome → Bool
  | finished .. | stopped .. => true
  | _ => false

abbrev Programs := String → List String → ProgramOutcome

/-- Files whose programs can be started. A program knows under which name it was called. -/
abbrev ProgramFiles := Files Programs

namespace ProgramFiles

def searchFolders : List String := ["/usr/bin/", "/bin/"]

/-- Starts the program at a path under a name. Texts with a null character cannot be handed over. -/
def launch (f : ProgramFiles) (path name : String) (args : List String) : ProgramOutcome :=
  if (path :: args).any (·.contains (Char.ofNat 0)) then .notLaunched path .malformed
  else match f.find path with
    | .error e => .notLaunched path e
    | .ok (.program _ run) => run name args
    | .ok _ => .notLaunched path .denied

/-- The path that a word stands for: a path if it has a slash, and else the name of a program. -/
def locate (f : ProgramFiles) (word : String) : Option String :=
  if word.contains '/' then some word
  else (searchFolders.map (· ++ word)).find? fun path => (f.programName? path).isSome

def programs (f : ProgramFiles) : Programs := fun word args =>
  if word = "" then .noCommand
  else if word = "/" then .isFolder
  else match f.locate word with
    | some path => f.launch path word args
    | none => .notFound

end ProgramFiles

/-- A program used as translator, with its arguments in front of the formula. -/
structure ProgramTranslator where
  path : String
  args : List String
  verbose : Bool
deriving DecidableEq, Repr

namespace ProgramTranslator

/-- Translators that are known by their names; other names are paths. -/
def ofName (name : String) (verbose : Bool) : ProgramTranslator :=
  if name = "" ∨ name = "ltl2ba" then ⟨"ltl2ba", ["-f"], verbose⟩
  else if name = "ltl2tgba" then ⟨"ltl2tgba", ["-s", "-f"], verbose⟩
  else ⟨name, ["-f"], verbose⟩

def signalNames : List String := [
  "hangup", "interrupt", "quit", "illegal instruction", "trace/breakpoint trap", "aborted",
  "bus error", "floating point exception", "killed", "user defined signal 1", "segmentation fault",
  "user defined signal 2", "broken pipe", "alarm clock", "terminated"]

def signalName (k : Nat) : String :=
  match k with
  | 0 => "signal 0"
  | k + 1 => signalNames[k]?.getD ("signal " ++ toString (k + 1))

def failure (path : String) (outcome : ProgramOutcome) : String :=
  let noted (text err : String) : String :=
    let notes := String.ofList (Text.trimBlank err.toList)
    text ++ if notes.isEmpty then "" else ": " ++ notes
  path ++ ": " ++ match outcome with
    | .finished _ err status => noted ("exit status " ++ toString status) err
    | .stopped signal err => noted ("signal: " ++ signalName signal) err
    | .noCommand => "exec: no command"
    | .notFound => "exec: " ++ Text.quote path ++ ": executable file not found in $PATH"
    | .isFolder => "exec: " ++ Text.quote path ++ ": is a directory"
    | .notLaunched full e => "fork/exec " ++ full ++ ": " ++ e.message
    | .notStarted e => e.message

/-- The translator that a program is on a system. -/
def translator (t : ProgramTranslator) (programs : Programs) : Translator := fun _ formula =>
  match programs t.path (t.args ++ [formula]) with
  | .finished out _ 0 => ⟨.ok out, if t.verbose then [.translated t.path formula] else []⟩
  | outcome => ⟨.error (.failed (failure t.path outcome)), []⟩

end ProgramTranslator
end SymbolicLtl
