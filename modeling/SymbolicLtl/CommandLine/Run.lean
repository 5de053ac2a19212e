import SymbolicLtl.CommandLine.Flags
import SymbolicLtl.Service.Address
import SymbolicLtl.Service.Server
import SymbolicLtl.Translator.Program

/-!
The command: it checks one model and exits with 0 if the property holds, with 1 if it is violated,
and with 2 on errors.
-/
namespace SymbolicLtl.CommandLine

/-- What the command finds around it. -/
structure Environment where
  /-- The text of a file. -/
  read : String → Except PathError String
  programs : Programs
  /-- The server behind a socket. -/
  connect : String → Except PathError Server
  /-- The nanoseconds that pass before a translator or a server is asked. -/
  delay : Int

namespace Environment

/-- The surroundings that files make up, with a server behind their sockets. -/
def ofFiles (f : ProgramFiles) (server : Server) (delay : Int) : Environment where
  read := f.read
  programs := f.programs
  connect path := do
    f.connect path
    return server
  delay := delay

/-- The model in a file. A folder has no text. -/
def load (env : Environment) (path : String) : Except String Model :=
  match env.read path with
  | .ok text => (Model.load text).mapError (·.message)
  | .error .isFolder => .error (ModelError.unreadable .malformed).message
  | .error e => .error ("open " ++ path ++ ": " ++ e.message)

end Environment

structure Outcome where
  exit : Nat
  /-- What is printed, given the written time of the check. -/
  output : String → String
  error : Option String
  /-- The program that was started as translator, and the formula it was given. -/
  launched : Option (String × String)

namespace Outcome

def failed (text : String) : Outcome := ⟨2, fun _ => "", some text, none⟩

def usage (exit : Nat) : Outcome := ⟨exit, fun _ => "", none, none⟩

/-- The end that the answer of a check leads to. -/
def ofResult {ε : Type} (message : ε → String) (launched : Option (String × String))
    (r : Attempt ε Response) : Outcome :=
  match r with
  | .ok r => ⟨if r.holds then 0 else 1,
      fun elapsed => (r.describe elapsed).toOption.getD "" ++ "\n", none, launched⟩
  | .error (.refused e) => ⟨2, fun _ => "", some (message e), launched⟩
  | .error (.misused _) => ⟨2, fun _ => "", none, launched⟩

end Outcome

/-- A list of numbers; an empty text is the empty list. -/
def readIndexes (flag text : String) : Except String (List Int) :=
  if text = "" then .ok []
  else (Text.splitBy ',' text.toList).mapM fun part =>
    let trimmed := String.ofList (Text.trimBlank part)
    (Text.readDecimal trimmed).mapError fun e =>
      "-" ++ flag ++ ": invalid index " ++ Text.quote (String.ofList part) ++
        ": strconv.Atoi: parsing " ++ Text.quote trimmed ++ ": " ++ e.message

def requestOptions (f : Flags) : Except String RequestOptions := do
  return {
    parallel := f.parallel
    strategy := f.strategy
    forwardSlices := ← readIndexes "forward-slices" f.forwardSlices
    backwardSlices := ← readIndexes "backward-slices" f.backwardSlices
    executors := f.executors
    method := f.method
    safety := f.safety
    extendTrans := ← readIndexes "extend-trans" f.extendTrans }

/-- Time is up before a translator or a server is asked. -/
def isExpired (env : Environment) (f : Flags) : Bool := 0 < f.timeout && f.timeout ≤ env.delay

/-- The programs that can be started; when time is up only names of no program are noticed. -/
def startable (env : Environment) (f : Flags) : Programs := fun path args =>
  match env.programs path args with
  | .noCommand => .noCommand
  | .notFound => .notFound
  | .isFolder => .isFolder
  | outcome => if isExpired env f then .notStarted .deadlineExceeded else outcome

def checkHere (env : Environment) (f : Flags) (m : Model) (o : RequestOptions) : Outcome :=
  match o.checkerOptions with
  | .error e => .failed (RequestError.method e).message
  | .ok options =>
    let t := ProgramTranslator.ofName f.translator f.verbose
    let settings := Settings.ofOptions (options ++ if f.verbose then [.verbose] else [])
    let programs := startable env f
    let report := settings.run (t.translator programs) none m
    let launched := report.asked.bind fun formula =>
      if (programs t.path (t.args ++ [formula])).isStarted then some (t.path, formula) else none
    .ofResult RunError.message launched report.result

/-- The server at an endpoint, or why nobody answers there. -/
def dial (env : Environment) : Endpoint → Except String Server
  | .network address => .error (Endpoint.networkFailure address)
  | .socket path =>
    if path = "" then .error "dial unix: missing address"
    else (env.connect path).mapError fun e => "dial unix " ++ path ++ ": connect: " ++ e.message

def checkRemotely (env : Environment) (f : Flags) (m : Model) (o : RequestOptions) : Outcome :=
  match Endpoint.ofAddress f.remote with
  | .error text => .failed text
  | .ok endpoint =>
    let result : Attempt Status Response :=
      if isExpired env f then Attempt.refuse ⟨.deadlineExceeded, Ending.deadlineExceeded.message⟩
      else match dial env endpoint with
        | .ok server => (server.serve (Request.toValue ⟨m, o⟩)).result
        | .error reason => Attempt.refuse ⟨.unavailable, "connection error: desc = " ++
            Text.quote ("transport: Error while dialing: " ++ reason)⟩
    .ofResult Status.describe none result

def run (env : Environment) (args : List String) : Outcome :=
  match readFlags {} args with
  | .error .helpWanted => .usage 0
  | .error .malformed => .usage 2
  | .ok (f, [path]) =>
    if f.help then .usage 2
    else
      match (do
        let m ← env.load path
        return (m, ← requestOptions f) : Except String (Model × RequestOptions)) with
      | .error text => .failed text
      | .ok (m, o) => if f.remote = "" then checkHere env f m o else checkRemotely env f m o
  | .ok _ => .usage 2

end SymbolicLtl.CommandLine
