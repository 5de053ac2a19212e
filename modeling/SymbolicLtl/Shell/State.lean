import SymbolicLtl.Shell.Script
import SymbolicLtl.Shell.Test
import SymbolicLtl.Text.Bytes

/-! What a script has done so far: its variables, what it has written, and how it goes on. -/
namespace SymbolicLtl.Shell

/-- Where a stream leads. -/
inductive Sink where
  | buffer (k : Nat)
  | file (path : String)
  | nothing
deriving DecidableEq, Repr

/-- How a script goes on. -/
inductive Flow where
  | running
  /-- This many loops are left. -/
  | leaving (loops : Nat)
  /-- All but the last of this many loops are left, and that one starts its next round. -/
  | continuing (loops : Nat)
  /-- The function that is being run is left. -/
  | returning
  | over
deriving DecidableEq, Repr

structure State where
  name : String
  args : List String
  /-- The number of the process, by which a script can stop itself. -/
  process : Nat := 4242
  /-- What has been written: output, errors, and below them what is read again. -/
  buffers : Array (Array UInt8) := #[#[], #[]]
  files : List (String × Array UInt8) := []
  streams : List (Nat × Sink) := [(1, .buffer 0), (2, .buffer 1)]
  /-- What is left to read. -/
  input : List Char := []
  status : Nat := 0
  /-- The status of the last script whose output was filled in. -/
  filled : Option Nat := none
  /-- The status of the last command in the background. -/
  job : Nat := 0
  flow : Flow := .running
  /-- The number of the signal that ended the script. -/
  signal : Option Nat := none
  bindings : List (String × String) := []
  exported : List String := []
  /-- Variables that keep their value. -/
  fixed : List String := []
  /-- Values that the variables of a function had outside of it. -/
  hidden : List (String × Option String) := []
  functions : List (String × Command) := []
  /-- What is done at a signal. -/
  actions : List (Nat × String) := []
  /-- A command that fails ends the script. -/
  strict : Bool := false
  /-- A missing value ends the script. -/
  demanding : Bool := false
  /-- Commands are shown before they are run. -/
  traced : Bool := false
  /-- The status of the command decides what is run next. -/
  isTested : Bool := false
  loops : Nat := 0
  /-- How many functions are being run. -/
  calls : Nat := 0
  line : Nat := 1
  /-- The command that runs a text as a part of the script. -/
  context : Option String := none

namespace State

def isRunning (s : State) : Bool := s.flow = .running

def write (s : State) (stream : Nat) (bs : List UInt8) : State :=
  match s.streams.lookup stream with
  | some (.buffer k) => { s with buffers := s.buffers.modify k (· ++ bs) }
  | some (.file path) =>
    let old := (s.files.lookup path).getD #[]
    { s with files := (path, old ++ bs) :: s.files.filter (·.1 ≠ path) }
  | _ => s

def connect (s : State) (stream : Nat) (sink : Option Sink) : State :=
  let others := s.streams.filter (·.1 ≠ stream)
  { s with streams := match sink with
    | some k => (stream, k) :: others
    | none => others }

def say (s : State) (text : String) : State :=
  s.write 2 (Text.bytes s!"{s.name}: {s.line}: {text}\n")

def report (s : State) (text : String) : State :=
  s.say ((match s.context with
    | some command => command ++ ": "
    | none => "") ++ text)

/-- An error message of a command. -/
def complain (s : State) (command text : String) (status : Nat) : State :=
  { s.say (command ++ ": " ++ text) with status := status }

/-- An error of a command that may end the script. -/
def fail (s : State) (isVital : Bool) (command text : String) : State :=
  { s.complain command text 2 with flow := if isVital then .over else s.flow }

def abort (s : State) (text : String) : State :=
  { s.report text with status := 2, flow := .over }

/-- The value of a variable or of another parameter, if it has one. -/
def value? (s : State) (parameter : String) : Option String :=
  match parameter.toNat? with
  | some k => (s.name :: s.args)[k]?
  | none =>
    match parameter with
    | "?" => some (toString s.status)
    | "#" => some (toString s.args.length)
    | "$" => some (toString s.process)
    | "!" => some (toString (s.process + 1))
    | "-" => some ((if s.strict then "e" else "") ++ (if s.demanding then "u" else "")
        ++ (if s.traced then "x" else ""))
    | "@" | "*" => if s.args.isEmpty then none else some (" ".intercalate s.args)
    | x => s.bindings.lookup x

def assign (s : State) (x value : String) : State :=
  { s with bindings := (x, value) :: s.bindings.filter (·.1 ≠ x) }

def unassign (s : State) (x : String) : State :=
  { s with bindings := s.bindings.filter (·.1 ≠ x), exported := s.exported.filter (· ≠ x) }

/-- Gives a variable the value back that it had. -/
def restore (s : State) (x : String) (old : Option String) : State :=
  match old with
  | some v => s.assign x v
  | none => { s with bindings := s.bindings.filter (·.1 ≠ x) }

/-- The characters that separate words in values. -/
def separators (s : State) : List Char :=
  ((s.bindings.lookup "IFS").getD " \t\n").toList

/-- The state of a script that works on a copy of this one. -/
def separate (s : State) : State :=
  { s with actions := s.actions.filter (·.2 = ""), loops := 0 }

/-- What remains of the work on a copy. -/
def joined (s t : State) : State :=
  { s with
    buffers := t.buffers
    files := t.files
    input := t.input
    status := t.status
    signal := t.signal
    flow := if t.signal.isSome then .over else s.flow }

/-- Folders that are there. -/
def isFolder (path : String) : Bool :=
  let trimmed := String.ofList ((path.toList.reverse.dropWhile (· == '/')).reverse)
  path ≠ "" && ["", ".", "..", "/tmp", "/bin", "/usr", "/usr/bin", "/etc", "/dev", "/var", "/home",
    "/root", "/opt", "/lib", "/proc", "/sys"].contains trimmed

def devices : List String := ["/dev/null", "/dev/zero", "/dev/stdin", "/dev/stdout", "/dev/stderr"]

def pathKind (s : State) (path : String) : Option PathKind :=
  match s.files.lookup path with
  | some bs => some (.file bs.isEmpty)
  | none => if isFolder path then some .folder else if devices.contains path then some .device else none

def readFile? (s : State) (path : String) : Option (List UInt8) :=
  match s.files.lookup path with
  | some bs => some bs.toList
  | none =>
    if path = "/dev/null" then some []
    else if path = "/dev/stdin" then some (Text.bytes (String.ofList s.input))
    else none

end State

/-- What runs commands. -/
abbrev Evaluator := Command → State → State

def runText (eval : Evaluator) (text : List Char) (s : State) : State :=
  let (commands, fault) := readScript text
  let t := commands.foldl (fun s c => eval c s) s
  match fault with
  | some f =>
    if t.isRunning then
      { t.write 2 (Text.bytes (f.message t.name t.context)) with status := 2, flow := .over }
    else t
  | none => t

/-- The end of a process: what was left for it is run now. -/
def finish (eval : Evaluator) (s : State) : State :=
  match s.actions.lookup 0, s.signal with
  | some action, none =>
    let t := runText eval action.toList
      { s with flow := .running, actions := s.actions.filter (·.1 ≠ 0), loops := 0 }
    if t.flow = .over then t else { t with status := s.status }
  | _, _ => s

/-- Runs something on a copy of the state and keeps its output apart. -/
def capture (eval : Evaluator) (run : State → State) (s : State) : State × List UInt8 :=
  let k := s.buffers.size
  let copy := { s.separate with buffers := s.buffers.push #[] }
  let t := finish eval (run (copy.connect 1 (some (.buffer k))))
  ({ s.joined t with buffers := t.buffers.extract 0 k }, (t.buffers[k]?.getD #[]).toList)

end SymbolicLtl.Shell
