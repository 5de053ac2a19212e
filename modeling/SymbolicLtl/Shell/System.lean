import SymbolicLtl.Shell.Interpreter

/-! The programs of a system with a command interpreter, and the folders they are in. -/
namespace SymbolicLtl.Shell

def outcome (s : State) : ProgramOutcome :=
  let text (k : Nat) : String := Text.ofBytes (s.buffers[k]?.getD #[]).toList
  match s.signal with
  | some k => .stopped k (text 1)
  | none => .finished (text 0) (text 1) s.status

def run (script name : String) (args : List String) : ProgramOutcome :=
  let eval := evaluate evaluationDepth
  outcome (finish eval (runText eval script.toList { name := name, args := args }))

def shell (name : String) (args : List String) : ProgramOutcome :=
  outcome (runShell (evaluate evaluationDepth) name args { name := name, args := [] })

/-- The programs that are found by their names. -/
def programs : List (String × Programs) :=
  let small := ["true", "false", "echo", "printf", "cat", "head", "seq", "test", "sleep"]
  let src : Sources := ⟨fun path => if path = "/dev/null" then some [] else none, []⟩
  let refuse (name : String) (args : List String) : Exit :=
    match args.find? (·.startsWith "-") with
    | some option => invalidOption name (String.ofList ((option.toList.drop 1).take 1))
    | none => ⟨[], "", 0⟩
  let ended (e : Exit) : ProgramOutcome := .finished (Text.ofBytes e.out) e.err e.status
  (small.filterMap fun name => (smallProgram? name).map fun run =>
      (name, fun calledAs args => ended (run calledAs src args)))
    ++ [("tr", fun name args => ended (refuse name args)), ("sh", shell)]

/-- The files of the system, around a working folder with the given entries. -/
def systemFiles (entries : List (String × Entry Programs)) : ProgramFiles where
  root :=
    let bin : Entry Programs := .folder (programs.map fun (name, run) => (name, .program name run))
    let none : Entry Programs := .folder []
    .folder [("bin", bin), ("usr", .folder [("bin", bin), ("lib", none), ("share", none)]),
      ("dev", .folder [("null", .file ""), ("zero", .file ""), ("stdin", .file "")]),
      ("etc", .folder [("passwd", .file "root"), ("hosts", .file "localhost")]),
      ("home", none), ("lib", none), ("opt", none), ("proc", none), ("root", none), ("sbin", none),
      ("sys", none), ("var", none), ("tmp", .folder [("work", .folder entries)])]
  here := ["tmp", "work"]

/-- The programs of the system, with a script at a path. -/
def withScript (path : String) (script : Option String) : Programs := fun word args =>
  match script with
  | some text => if word = path ∧ word.contains '/' then run text word args else
    (systemFiles []).programs word args
  | none => (systemFiles []).programs word args

end SymbolicLtl.Shell
