import SymbolicLtl.Shell.Expansion
import SymbolicLtl.Shell.Printf

/-! The commands that are part of the interpreter. -/
namespace SymbolicLtl.Shell

def signalNames : List String := [
  "EXIT", "HUP", "INT", "QUIT", "ILL", "TRAP", "ABRT", "BUS", "FPE", "KILL", "USR1", "SEGV", "USR2",
  "PIPE", "ALRM", "TERM", "STKFLT", "CHLD", "CONT", "STOP", "TSTP", "TTIN", "TTOU", "URG", "XCPU",
  "XFSZ", "VTALRM", "PROF", "WINCH", "IO", "PWR", "SYS"]

def readSignal (text : String) : Option Nat :=
  match text.toNat? with
  | some k => if k < 65 then some k else none
  | none => signalNames.idxOf? (text.map Char.toUpper)

/-- The signal does not end a process. -/
def isHarmless (signal : Nat) : Bool := [0, 17, 18, 19, 20, 21, 22, 23, 28].contains signal

def receive (eval : Evaluator) (signal : Nat) (s : State) : State :=
  let action := if signal = 9 || signal = 19 then none else s.actions.lookup signal
  match action with
  | some "" => { s with status := 0 }
  | some text =>
    let t := runText eval text.toList { s with status := 0 }
    { t with status := if t.flow = .over then t.status else 0 }
  | none =>
    if isHarmless signal then { s with status := 0 }
    else { s with flow := .over, signal := some signal }

/-- Sends a signal to the processes with the given numbers. -/
def send (eval : Evaluator) (signal : Nat) (targets : List String) (s : State) : State :=
  targets.foldl (fun s target =>
    if !s.isRunning then s
    else if target = toString s.process || target = "0" then receive eval signal s
    else if target.isInt then s.complain "kill" "No such process\n" 1
    else s.fail false "kill" ("Illegal number: " ++ target)) s

def kill (eval : Evaluator) (args : List String) (s : State) : State :=
  let usage := s.complain "kill"
    "Usage: kill [-s sigspec | -signum | -sigspec] [pid | job]... or\nkill -l [exitstatus]" 2
  match args with
  | [] => usage
  | ["-l"] => { s.write 1 (Text.bytes ("\n".intercalate signalNames ++ "\n")) with status := 0 }
  | "-l" :: text :: _ =>
    match text.toNat? with
    | none => s.fail false "kill" ("Illegal number: " ++ text)
    | some k =>
      match (signalNames.drop 1)[(if 128 < k then k - 128 else k) - 1]? with
      | some name =>
        if k = 0 then s.fail false "kill" "invalid signal number or exit status: 0"
        else { s.write 1 (Text.bytes (name ++ "\n")) with status := 0 }
      | none => s.fail false "kill" ("invalid signal number or exit status: " ++ text)
  | "-s" :: name :: targets =>
    match readSignal name with
    | some k => if targets.isEmpty then usage else send eval k targets s
    | none => s.fail false "kill" ("invalid signal number or name: " ++ name)
  | "--" :: targets => send eval 15 targets s
  | first :: targets =>
    match first.toList with
    | '-' :: name =>
      match readSignal (String.ofList name) with
      | some k => if targets.isEmpty then usage else send eval k targets s
      | none => s.fail false "kill" ("Illegal option -" ++ String.ofList (name.take 1))
    | _ => send eval 15 (first :: targets) s

/-- Puts a text in quotes so that a script reads it as one word. -/
def scriptQuoted (text : String) : String := "'" ++ text.replace "'" "'\"'\"'" ++ "'"

def trap (args : List String) (s : State) : State :=
  let args := if args.head? = some "--" then args.drop 1 else args
  let change (action : Option String) (names : List String) : State :=
    names.foldl (fun s name =>
      match readSignal name with
      | some k =>
        let others := s.actions.filter (·.1 ≠ k)
        { s with actions := match action with
          | some a => (k, a) :: others
          | none => others }
      | none => { s.write 2 (Text.bytes ("trap: " ++ name ++ ": bad trap\n")) with status := 1 })
      { s with status := 0 }
  match args with
  | [] =>
    let lines := s.actions.reverse.map fun (k, action) =>
      "trap -- " ++ scriptQuoted action ++ " " ++ (signalNames[k]?.getD (toString k)) ++ "\n"
    { s.write 1 (Text.bytes (String.join lines)) with status := 0 }
  | [name] => change none [name]
  | "-" :: names => change none names
  | action :: names =>
    if action.isNat then change none (action :: names) else change (some action) names

/-- Marks variables, and gives them values. -/
def markNames (command : String) (mark : String → State → State) (args : List String)
    (s : State) : State :=
  let names := args.filter fun a => !a.startsWith "-"
  if names.isEmpty then
    let lines := (s.bindings.filter fun b => s.exported.contains b.1).map fun (x, v) =>
      "export " ++ x ++ "=" ++ scriptQuoted v ++ "\n"
    { s.write 1 (Text.bytes (String.join lines)) with status := 0 }
  else names.foldl (fun s a =>
    if !s.isRunning then s
    else
      let name := String.ofList (a.toList.takeWhile (· != '='))
      if !isName name then s.fail true command (name ++ ": bad variable name")
      else if a.contains '=' && s.fixed.contains name then
        s.fail true command (name ++ ": is read only")
      else mark name (if a.contains '='
        then s.assign name (String.ofList (a.toList.drop (name.length + 1))) else s))
    { s with status := 0 }

def localNames (args : List String) (s : State) : State :=
  if s.calls = 0 then s.fail true "local" "not in a function"
  else args.foldl (fun s a =>
    let name := String.ofList (a.toList.takeWhile (· != '='))
    let s := { s with hidden := (name, s.bindings.lookup name) :: s.hidden }
    if a.contains '=' then s.assign name (String.ofList (a.toList.drop (name.length + 1)))
    else s) { s with status := 0 }

/-- The first line of the input, in which a backslash protects the next character, and the rest.
The flag tells whether the line has an end. -/
def takeLine (raw : Bool) : List Char → List PatternChar × List Char × Bool
  | [] => ([], [], false)
  | '\n' :: rest => ([], rest, true)
  | '\\' :: c :: rest =>
    if raw then
      let (line, rest, ended) := takeLine raw (c :: rest)
      (('\\', false) :: line, rest, ended)
    else
      let (line, rest, ended) := takeLine raw rest
      (if c = '\n' then line else (c, true) :: line, rest, ended)
  | c :: rest =>
    let (line, rest, ended) := takeLine raw rest
    ((c, false) :: line, rest, ended)

/-- Gives parts of a line to variables; the last one takes all that is left. -/
def shareLine (separators : List Char) : List String → List PatternChar → State → State
  | [], _, s => s
  | x :: names, line, s =>
    let separates (c : PatternChar) : Bool := !c.2 && separators.contains c.1
    let isBlank (c : PatternChar) : Bool :=
      separates c && (c.1 == ' ' || c.1 == '\t' || c.1 == '\n')
    let line := line.dropWhile isBlank
    let text (cs : List PatternChar) : String := String.ofList (cs.map (·.1))
    if names.isEmpty then s.assign x (text (line.reverse.dropWhile isBlank).reverse)
    else
      let part := line.takeWhile (!separates ·)
      let rest := (line.drop part.length).dropWhile isBlank
      let rest := match rest with
        | c :: more => if separates c then more else rest
        | [] => []
      shareLine separators names rest (s.assign x (text part))

def readNames (args : List String) (s : State) : State :=
  let raw := args.contains "-r"
  let names := args.filter fun a => !a.startsWith "-"
  let letters := (args.filter (·.startsWith "-")).flatMap (·.toList.drop 1)
  if let some c := letters.find? (fun c => c ≠ 'r' && c ≠ 'p' && c ≠ '-') then
    s.fail false "read" ("Illegal option -" ++ c.toString)
  else if names.isEmpty then s.complain "read" "arg count" 2
  else
    let (line, rest, ended) := takeLine raw s.input
    let s := shareLine s.separators names line { s with input := rest }
    { s with status := if ended then 0 else 1 }

/-- The exit status that a number stands for. -/
def exitWith (flow : Flow) (command : String) (args : List String) (s : State) : State :=
  match args with
  | [] => { s with flow := flow }
  | n :: _ =>
    if !n.isEmpty && n.toList.all Char.isDigit && (n.toNat?.getD 0) < 2147483648 then
      { s with flow := flow, status := (n.toNat?.getD 0) % 256 }
    else s.fail true command ("Illegal number: " ++ n)

/-- Leaves loops, or goes on with their next round. -/
def leaveLoops (flow : Nat → Flow) (command : String) (args : List String) (s : State) : State :=
  let s := { s with status := 0 }
  match args with
  | [] => if s.loops = 0 then s else { s with flow := flow 1 }
  | n :: _ =>
    match n.toNat? with
    | some (k + 1) =>
      if s.loops = 0 then s else { s with flow := flow (if s.loops < k + 1 then s.loops else k + 1) }
    | _ => s.fail true command ("Illegal number: " ++ n)

def setOption (on : Bool) (s : State) : Char → Option State
  | 'e' => some { s with strict := on }
  | 'u' => some { s with demanding := on }
  | 'x' => some { s with traced := on }
  | c => if "abcfhilmnsvCEIV".contains c then some s else none

/-- The options at the front of the arguments. -/
def setOptions (s : State) : List String → State
  | [] => s
  | "--" :: rest => { s with args := rest }
  | "-o" :: name :: rest =>
    setOptions (if name = "errexit" then { s with strict := true }
      else if name = "nounset" then { s with demanding := true }
      else if name = "xtrace" then { s with traced := true } else s) rest
  | "+o" :: name :: rest =>
    setOptions (if name = "errexit" then { s with strict := false }
      else if name = "nounset" then { s with demanding := false }
      else if name = "xtrace" then { s with traced := false } else s) rest
  | a :: rest =>
    match a.toList with
    | sign :: c :: letters =>
      if sign = '-' || sign = '+' then
        let t := (c :: letters).foldl (fun (t : State) d =>
          if !t.isRunning then t
          else match setOption (sign = '-') t d with
            | some u => u
            | none => t.fail true "set" ("Illegal option " ++ sign.toString ++ d.toString)) s
        if t.isRunning then setOptions t rest else t
      else { s with args := a :: rest }
    | _ => { s with args := a :: rest }

def shiftArgs (args : List String) (s : State) : State :=
  match args with
  | [] =>
    if s.args.isEmpty then s.fail true "shift" "can't shift that many"
    else { s with args := s.args.drop 1, status := 0 }
  | n :: _ =>
    match n.toNat? with
    | some k =>
      if s.args.length < k then s.fail true "shift" "can't shift that many"
      else { s with args := s.args.drop k, status := 0 }
    | none => s.fail true "shift" ("Illegal number: " ++ n)

def changeFolder (args : List String) (s : State) : State :=
  match args.filter (fun a => a ≠ "--" && a ≠ "-P" && a ≠ "-L") with
  | [] => { s with status := 0 }
  | folder :: _ =>
    if folder.startsWith "-" && folder ≠ "-" then
      s.fail false "cd" ("Illegal option -" ++ String.ofList ((folder.toList.drop 1).take 1))
    else if State.isFolder folder then { s.assign "PWD" folder with status := 0 }
    else s.complain "cd" ("can't cd to " ++ folder) 2

/-- Commands whose errors end the script, and whose assignments stay. -/
def specialBuiltins : List String := [
  ":", ".", "break", "continue", "eval", "exec", "exit", "export", "readonly", "return", "set",
  "shift", "times", "trap", "unset"]

def ordinaryBuiltins : List String := [
  "[", "alias", "cd", "command", "echo", "false", "hash", "jobs", "kill", "local", "printf", "pwd",
  "read", "test", "true", "type", "umask", "wait"]

def programNames : List String := ["cat", "head", "seq", "sh", "sleep"]

/-- What a name stands for where commands are looked up. -/
def describeName (s : State) (name : String) : Option (String × String) :=
  if reservedWords.contains name then some (name, "a shell keyword")
  else if specialBuiltins.contains name then some (name, "a special shell builtin")
  else if (s.functions.lookup name).isSome then some (name, "a shell function")
  else if ordinaryBuiltins.contains name then some (name, "a shell builtin")
  else if programNames.contains name then some ("/usr/bin/" ++ name, "/usr/bin/" ++ name)
  else none

def typeOf (args : List String) (s : State) : State :=
  args.foldl (fun s name =>
    match describeName s name with
    | some (_, what) => s.write 1 (Text.bytes (name ++ " is " ++ what ++ "\n"))
    | none => { s.write 1 (Text.bytes (name ++ ": not found\n")) with status := 127 })
    { s with status := 0 }

def ask (command : String) (args : List String) (s : State) : State :=
  match test s.pathKind args with
  | .ok b => { s with status := if b then 0 else 1 }
  | .error e => s.complain command e.message 2

def builtin (eval : Evaluator) (command : String) (args : List String) (s : State) : State :=
  let ok := { s with status := 0 }
  let print (bs : List UInt8) : State := ok.write 1 bs
  let format : State :=
    let e := printf ⟨s!"{s.name}: {s.line}: printf", false⟩ args
    { (s.write 1 e.out).write 2 (Text.bytes e.err) with status := e.status }
  let inside (command text : String) : State :=
    { runText eval text.toList { ok with context := some command } with context := s.context }
  match command with
  | ":" | "true" | "times" | "alias" | "hash" | "jobs" => ok
  | "false" => { s with status := 1 }
  | "umask" => if args.isEmpty then print (Text.bytes "0022\n") else ok
  | "echo" => print (plainEcho args)
  | "printf" =>
    match args with
    | first :: _ =>
      match first.toList with
      | '-' :: c :: _ => if c ≠ '-' then s.fail false "printf" ("Illegal option -" ++ c.toString) else format
      | _ => format
    | [] => format
  | "test" => ask "test" args s
  | "[" =>
    if args.getLast? = some "]" then ask "[" args.dropLast s else s.complain "[" "missing ]" 2
  | "kill" => kill eval args s
  | "trap" => trap args s
  | "export" =>
    markNames "export" (fun x s => { s with exported := x :: s.exported.filter (· ≠ x) }) args s
  | "readonly" => markNames "readonly" (fun x s => { s with fixed := x :: s.fixed }) args s
  | "local" => localNames args s
  | "read" => readNames args s
  | "unset" =>
    let names := args.filter fun a => !a.startsWith "-"
    if args.contains "-f" then { ok with functions := s.functions.filter (!names.contains ·.1) }
    else match names.find? (!isName ·), names.find? s.fixed.contains with
      | some x, _ => s.fail true "unset" (x ++ ": bad variable name")
      | none, some x => s.fail true "unset" (x ++ ": is read only")
      | none, none => names.foldl State.unassign ok
  | "exit" => exitWith .over "exit" args s
  | "return" => exitWith .returning "return" args s
  | "break" => leaveLoops .leaving "break" args s
  | "continue" => leaveLoops .continuing "continue" args s
  | "set" => let t := setOptions s args; if t.isRunning then { t with status := 0 } else t
  | "shift" => shiftArgs args s
  | "cd" => changeFolder args s
  | "pwd" => print (Text.bytes (((s.bindings.lookup "PWD").getD "/tmp/work") ++ "\n"))
  | "wait" =>
    match args with
    | [] => ok
    | n :: _ =>
      if !n.isNat then s.fail false "wait" ("Illegal number: " ++ n)
      else { s with status := if n = toString (s.process + 1) then s.job else 127 }
  | "type" => typeOf args s
  | "eval" => inside "eval" (" ".intercalate args)
  | "." =>
    match args with
    | path :: _ =>
      match s.readFile? path with
      | some bs => inside "." (Text.ofBytes bs)
      | none =>
        if path.contains '/' then s.fail true "." ("cannot open " ++ path ++ ": No such file")
        else s.fail true "." (path ++ ": not found")
    | [] => ok
  | _ => ok

end SymbolicLtl.Shell
