import SymbolicLtl.Shell.Builtin
import SymbolicLtl.Shell.Program
import SymbolicLtl.Translator.Program

/-!
The interpreter. What a command does is said in terms of what its parts do; the parts are run by an
evaluator that goes one level less deep.
-/
namespace SymbolicLtl.Shell

def openFile (stream : Nat) (append : Bool) (path : String) (s : State) : State × Bool :=
  let folder := String.ofList ((path.toList.reverse.dropWhile (· != '/')).reverse)
  if path = "/dev/null" || path = "/dev/zero" then (s.connect stream (some .nothing), true)
  else if path = "/dev/stdout" then (s.connect stream (s.streams.lookup 1), true)
  else if path = "/dev/stderr" then (s.connect stream (s.streams.lookup 2), true)
  else if State.isFolder path then (s.report s!"cannot create {path}: Is a directory", false)
  else if path = "" || (folder ≠ "" && !State.isFolder folder) then
    (s.report s!"cannot create {path}: Directory nonexistent", false)
  else
    let s := s.connect stream (some (.file path))
    let old := (s.files.lookup path).getD #[]
    ({ s with files := (path, if append then old else #[]) :: s.files.filter (·.1 ≠ path) }, true)

/-- Redirects a stream; the flag tells whether that was possible. -/
def redirect (eval : Evaluator) (r : Redirection) (s : State) : State × Bool :=
  match r.target with
  | .document text isLiteral =>
    let (s, text) := if isLiteral then (s, String.ofList text)
      else expandText eval (readWord .document text) s
    ({ s with input := text.toList }, s.isRunning)
  | .word d w =>
    let (s, text) := expandText eval w s
    if !s.isRunning then (s, false)
    else match d with
      | .write => openFile r.stream false text s
      | .append => openFile r.stream true text s
      | .read =>
        match s.readFile? text with
        | some bs => ({ s with input := (Text.ofBytes bs).toList }, true)
        | none => (s.report s!"cannot open {text}: No such file", false)
      | .readOrMake =>
        let (t, isOpen) := openFile 0 true text s
        ({ t with
          streams := s.streams
          input := (Text.ofBytes ((t.readFile? text).getD [])).toList }, isOpen)
      | .copy =>
        if text = "-" then (s.connect r.stream none, true)
        else if text.isNat then
          let k := text.toNat?.getD 0
          match if k = 0 then some .nothing else s.streams.lookup k with
          | some sink => (if r.stream = 0 then s else s.connect r.stream (some sink), true)
          | none => (s.report s!"{k}: Bad file descriptor", false)
        else (s.abort "Syntax error: Bad fd number", false)

def redirectAll (eval : Evaluator) : List Redirection → State → State × Bool
  | [], s => (s, true)
  | r :: rs, s =>
    match redirect eval r s with
    | (s, true) => redirectAll eval rs s
    | (s, false) => (s, false)

/-- Runs something with redirected streams. If that is not possible, the status is 2 and the script
may be over. -/
def withRedirections (eval : Evaluator) (rs : List Redirection) (isVital : Bool)
    (run : State → State) (s : State) : State :=
  let readsElse := rs.any (·.stream = 0)
  match redirectAll eval rs s with
  | (t, true) =>
    let u := run t
    { u with streams := s.streams, input := if readsElse then s.input else u.input }
  | (t, false) =>
    { t with streams := s.streams, input := s.input, status := 2,
             flow := if isVital then .over else t.flow }

/-- What a script says of a program that was ended by a signal. -/
def signalNotice (signal : Nat) : String :=
  if signal = 2 || signal = 13 then ""
  else
    let name := ProgramTranslator.signalName signal
    String.ofList ((name.toList.take 1).map Char.toUpper ++ name.toList.drop 1) ++ "\n"

/-- How the interpreter itself is called: letters of options, the script, and names behind it. -/
structure Call where
  letters : List Char
  operands : List String

def readCall (args : List String) : Call :=
  let isOption (a : String) : Bool := a.length > 1 && a.startsWith "-" && a ≠ "--"
  let rest := args.dropWhile isOption
  { letters := (args.takeWhile isOption).flatMap (·.toList.drop 1)
    operands := if rest.head? = some "--" || rest.head? = some "-" then rest.drop 1 else rest }

/-- Runs the interpreter as a program of its own. The state says what it can read and where it
writes. -/
def runShell (eval : Evaluator) (calledAs : String) (args : List String) (s : State) : State :=
  let call := readCall args
  let s := { s with name := calledAs, status := 0, strict := call.letters.contains 'e',
                    demanding := call.letters.contains 'u', traced := call.letters.contains 'x' }
  let fail (text : String) : State :=
    { s.write 2 (Text.bytes (calledAs ++ ": 0: " ++ text ++ "\n")) with status := 2 }
  let start (text : List Char) (name : String) (args : List String) : State :=
    finish eval (runText eval text { s with name := name, args := args })
  match call.letters.find? fun c => !"abcefhilmnsuvxCEIV".contains c with
  | some c => fail ("Illegal option -" ++ c.toString)
  | none =>
    match call.letters.contains 'c', call.operands with
    | true, [] => fail "-c requires an argument"
    | true, script :: rest => start script.toList (rest.headD calledAs) (rest.drop 1)
    | false, [] => start s.input calledAs []
    | false, path :: rest =>
      if call.letters.contains 's' then start s.input calledAs (path :: rest)
      else match s.readFile? path with
        | some bs => start (Text.ofBytes bs).toList path rest
        | none => fail ("cannot open " ++ path ++ ": No such file")

/-- Runs the interpreter inside of a script, or in its place. -/
def runChild (eval : Evaluator) (isReplacing : Bool) (calledAs : String) (args : List String)
    (s : State) : State :=
  let child : State := {
    name := calledAs
    args := []
    process := s.process + 1
    buffers := s.buffers
    files := s.files
    streams := s.streams
    input := s.input
    bindings := s.bindings.filter fun b => s.exported.contains b.1
    exported := s.exported }
  let t := runShell eval calledAs args child
  let u := { s with buffers := t.buffers, files := t.files, input := t.input, status := t.status }
  match t.signal with
  | none => u
  | some k =>
    if isReplacing then { u with signal := some k, flow := .over }
    else { u.write 2 (Text.bytes (signalNotice k)) with status := 128 + k }

def runProgram (eval : Evaluator) (isReplacing : Bool) (command : String) (args : List String)
    (s : State) : State :=
  let isPath := command.contains '/'
  let name := String.ofList (command.toList.reverse.takeWhile (· != '/')).reverse
  let folder := String.ofList (command.toList.take (command.length - name.length))
  let isThere := if isPath then folder = "/bin/" || folder = "/usr/bin/"
    else programNames.contains name
  if isThere && name = "sh" then runChild eval isReplacing command args s
  else match if isThere then smallProgram? name else none with
    | some run =>
      let input := Text.bytes (String.ofList s.input)
      let e := run command ⟨s.readFile?, input⟩ args
      let s := if name = "cat" || name = "head" then { s with input := [] } else s
      { (s.write 1 e.out).write 2 (Text.bytes e.err) with status := e.status }
    | none =>
      if State.isFolder command && isPath
      then { s.report (command ++ ": Permission denied") with status := 126 }
      else { s.report (command ++ ": not found") with status := 127 }

def callFunction (eval : Evaluator) (body : Command) (args : List String) (s : State) : State :=
  if 1000 ≤ s.calls then s.abort "Maximum function recursion depth (1000) reached"
  else
    let t := eval body { s with args := args, loops := 0, calls := s.calls + 1, hidden := [] }
    let t := t.hidden.foldl (fun t (x, old) => t.restore x old) t
    { t with
      args := s.args
      loops := s.loops
      calls := s.calls
      hidden := s.hidden
      flow := if t.flow = .returning then .running else t.flow }

def invoke (eval : Evaluator) (command : String) (args : List String) (s : State) : State :=
  if specialBuiltins.contains command then builtin eval command args s
  else match s.functions.lookup command with
    | some body => callFunction eval body args s
    | none =>
      if ordinaryBuiltins.contains command then builtin eval command args s
      else runProgram eval false command args s

/-- Runs a command by its name, but not a function. -/
def invokeDirectly (eval : Evaluator) (args : List String) (s : State) : State :=
  let ok := { s with status := 0 }
  match args with
  | [] => ok
  | "-v" :: names =>
    names.foldl (fun s name =>
      match describeName s name with
      | some (text, _) => s.write 1 (Text.bytes (text ++ "\n"))
      | none => { s with status := 127 }) ok
  | "-V" :: names => typeOf names s
  | command :: args => invoke eval command args { s with functions := s.functions.filter (·.1 ≠ command) }

def replaceBy (eval : Evaluator) (command : String) (args : List String) (s : State) : State :=
  let t := if ordinaryBuiltins.contains command && (smallProgram? command).isSome
    then runProgram eval true ("/usr/bin/" ++ command) args s
    else
      let u := runProgram eval true command args s
      if u.status = 127 then s.complain "exec" (command ++ ": not found") 127 else u
  { t with flow := .over, actions := [] }

def assignAll (eval : Evaluator) : List (String × Word) → State → State
  | [], s => s
  | (x, w) :: rest, s =>
    let (s, text) := expandText eval w s
    if s.isRunning && s.fixed.contains x then s.abort (x ++ ": is read only")
    else if s.isRunning then
      let s := if s.traced then s.write 2 (Text.bytes ("+ " ++ x ++ "=" ++ text ++ "\n")) else s
      assignAll eval rest (s.assign x text)
    else s

def runSimple (eval : Evaluator) (words : List Word) (rs : List Redirection) (s : State) : State :=
  let isAssignment (w : Word) : Bool := (assignment? w).isSome
  let assignments := (words.takeWhile isAssignment).filterMap assignment?
  let (s, fields) := expandWords eval (words.dropWhile isAssignment) { s with filled := none }
  if !s.isRunning then s
  else match fields with
    | [] =>
      withRedirections eval rs true (fun s =>
        let s := assignAll eval assignments s
        if s.isRunning then { s with status := s.filled.getD 0 } else s) s
    | command :: args =>
      let s := if s.traced && assignments.isEmpty
        then s.write 2 (Text.bytes ("+ " ++ " ".intercalate fields ++ "\n")) else s
      if command = "exec" && args.isEmpty then
        match redirectAll eval rs s with
        | (t, true) => { t with status := 0 }
        | (t, false) => { t with status := 2, flow := .over }
      else
        let isSpecial := specialBuiltins.contains command
        let run (s : State) : State :=
          let t := assignAll eval assignments s
          if !t.isRunning then t
          else
            let names := assignments.map (·.1)
            let t := if isSpecial then t else { t with exported := names ++ t.exported }
            let u := match command, args with
              | "exec", program :: args => replaceBy eval program args t
              | "command", args => { invokeDirectly eval args t with functions := t.functions }
              | _, _ => invoke eval command args t
            if isSpecial then u
            else { names.foldl (fun u x => u.restore x (s.bindings.lookup x)) u with
              exported := if names.isEmpty then u.exported else s.exported }
        withRedirections eval rs isSpecial run s

/-- A failure that nobody asks for ends a strict script. -/
def settle (s : State) : State :=
  if s.isRunning && s.strict && !s.isTested && s.status ≠ 0 then { s with flow := .over } else s

/-- What a round of a loop leaves, and whether there is a next one. -/
def endRound (s : State) : State × Bool :=
  match s.flow with
  | .running => (s, true)
  | .leaving (k + 2) => ({ s with flow := .leaving (k + 1) }, false)
  | .leaving _ => ({ s with flow := .running }, false)
  | .continuing (k + 2) => ({ s with flow := .continuing (k + 1) }, false)
  | .continuing _ => ({ s with flow := .running }, true)
  | _ => (s, false)

/-- Runs the rounds of a loop; `last` is the status of the round before. -/
def rounds (eval : Evaluator) (isUntil : Bool) (condition body : Command) :
    (fuel last : Nat) → State → State
  | 0, last, s => { s with status := last }
  | n + 1, last, s =>
    match endRound (eval condition { s with isTested := true }) with
    | (t, false) => { t with isTested := s.isTested }
    | (t, true) =>
      let t := { t with isTested := s.isTested }
      if (t.status = 0) = isUntil then { t with status := last }
      else match endRound (eval body t) with
        | (u, true) => rounds eval isUntil condition body n u.status u
        | (u, false) => u

def roundsFor (eval : Evaluator) (name : String) (body : Command) : List String → State → State
  | [], s => s
  | x :: xs, s =>
    match endRound (eval body (s.assign name x)) with
    | (t, true) => roundsFor eval name body xs t
    | (t, false) => t

def inLoop (run : State → State) (s : State) : State :=
  { run { s with loops := s.loops + 1 } with loops := s.loops }

/-- The first arm with a pattern that a text fits. -/
def chooseArm (eval : Evaluator) (text : List Char) :
    List (List Word × Command) → State → State × Command
  | [], s => ({ s with status := 0 }, .nothing)
  | (ps, body) :: arms, s =>
    let (s, isFound) := ps.foldl (fun (s, isFound) p =>
      if isFound then (s, true)
      else
        let (s, ms) := expandMarks eval p s
        (s, fits (Mark.pattern ms) text)) (s, false)
    if isFound then ({ s with status := 0 }, body) else chooseArm eval text arms s

/-- What a command does, in terms of what its parts do. -/
def step (eval : Evaluator) (c : Command) (s : State) : State :=
  let tested (c : Command) (s : State) : State :=
    { eval c { s with isTested := true } with isTested := s.isTested }
  let apart (c : Command) (s : State) : State := s.joined (finish eval (eval c s.separate))
  match c with
  | .nothing => s
  | .simple line words rs => settle (runSimple eval words rs { s with line := line })
  | .sequence a b => eval b (eval a s)
  | .andThen a b =>
    let t := tested a s
    if t.isRunning && t.status = 0 then eval b t else t
  | .orElse a b =>
    let t := tested a s
    if t.isRunning && t.status ≠ 0 then eval b t else t
  | .negated a =>
    let t := tested a s
    if t.isRunning then { t with status := if t.status = 0 then 1 else 0 } else t
  | .pipe a b =>
    let (t, bs) := capture eval (eval a) s
    let read := { t with input := (Text.ofBytes bs).toList, status := s.status }
    settle { t.joined (finish eval (eval b read.separate)) with input := s.input }
  | .background a =>
    let t := apart a { s with input := [] }
    { t with status := 0, job := t.status, input := s.input }
  | .separate a => settle (apart a s)
  | .choice condition yes no =>
    let t := tested condition s
    if !t.isRunning then t
    else if t.status = 0 then eval yes t
    else eval no { t with status := if no matches .nothing then 0 else t.status }
  | .loop isUntil condition body => inLoop (rounds eval isUntil condition body 1000000 0) s
  | .forEach name words body =>
    let (s, fields) := expandWords eval words s
    if s.isRunning then inLoop (roundsFor eval name body fields) { s with status := 0 } else s
  | .selection word arms =>
    let (s, text) := expandText eval word s
    if !s.isRunning then s
    else
      let (s, body) := chooseArm eval text.toList arms s
      eval body s
  | .redirected a rs => withRedirections eval rs false (eval a) s
  | .function name body =>
    { s with functions := (name, body) :: s.functions.filter (·.1 ≠ name), status := 0 }

/-- Runs a command whose parts are nested at most `depth` deep; a deeper one breaks off. -/
def evaluate : (depth : Nat) → Evaluator
  | 0, _, s => { s with flow := .over, signal := some 11 }
  | depth + 1, c, s => if s.isRunning then step (evaluate depth) c s else s

def evaluationDepth : Nat := 20000

end SymbolicLtl.Shell
