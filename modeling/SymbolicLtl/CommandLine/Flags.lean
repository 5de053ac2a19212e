import SymbolicLtl.Text.Duration
import SymbolicLtl.Text.Integer

/-! The flags of the command line. -/
namespace SymbolicLtl.CommandLine

structure Flags where
  help : Bool := false
  parallel : Bool := false
  strategy : String := "message-passing"
  forwardSlices : String := ""
  backwardSlices : String := ""
  executors : Int := 0
  method : String := "partition"
  safety : Bool := false
  extendTrans : String := ""
  translator : String := "ltl2ba"
  verbose : Bool := false
  remote : String := ""
  /-- A time limit in nanoseconds. -/
  timeout : Int := 0
deriving DecidableEq, Repr

inductive FlagError where
  | helpWanted
  | malformed
deriving DecidableEq, Repr

/-- How the flag with a name is set. -/
inductive Setter where
  /-- Such a flag stands for true and needs no value. -/
  | switch (set : Bool → Flags)
  | value (set : String → Option Flags)

def setter (f : Flags) : String → Option Setter
  | "help" => some (.switch fun b => { f with help := b })
  | "parallel" => some (.switch fun b => { f with parallel := b })
  | "safety" => some (.switch fun b => { f with safety := b })
  | "verbose" => some (.switch fun b => { f with verbose := b })
  | "strategy" => some (.value fun v => some { f with strategy := v })
  | "forward-slices" => some (.value fun v => some { f with forwardSlices := v })
  | "backward-slices" => some (.value fun v => some { f with backwardSlices := v })
  | "trans-method" => some (.value fun v => some { f with method := v })
  | "extend-trans" => some (.value fun v => some { f with extendTrans := v })
  | "translator" => some (.value fun v => some { f with translator := v })
  | "remote" => some (.value fun v => some { f with remote := v })
  | "executors" => some (.value fun v =>
      (Text.readInteger v).toOption.map fun n => { f with executors := n })
  | "timeout" => some (.value fun v => (Text.readDuration v).map fun t => { f with timeout := t })
  | _ => none

inductive Argument where
  /-- No flag; it and all behind it are arguments. -/
  | plain
  /-- The end of the flags. -/
  | stop
  | malformed
  | flag (name : String) (value : Option String)
deriving DecidableEq, Repr

/-- The name of a flag, and the value behind an equals sign. -/
def splitFlag (cs : List Char) : Argument :=
  match cs with
  | [] => .malformed
  | c :: rest =>
    if c == '-' || c == '=' then .malformed
    else
      let name := String.ofList (c :: rest.takeWhile (· != '='))
      match rest.dropWhile (· != '=') with
      | [] => .flag name none
      | _ :: value => .flag name (some (String.ofList value))

def Argument.ofText (text : String) : Argument :=
  match text.toList with
  | ['-', '-'] => stop
  | '-' :: '-' :: rest => splitFlag rest
  | '-' :: c :: rest => splitFlag (c :: rest)
  | _ => plain

/-- Reads flags from the front of a list of arguments, and gives the arguments behind them. -/
def readFlags (f : Flags) (args : List String) : Except FlagError (Flags × List String) :=
  match args with
  | [] => .ok (f, [])
  | arg :: rest =>
    match Argument.ofText arg with
    | .plain => .ok (f, arg :: rest)
    | .stop => .ok (f, rest)
    | .malformed => .error .malformed
    | .flag name value =>
      match setter f name, value with
      | none, _ => .error (if name = "h" then .helpWanted else .malformed)
      | some (.switch set), none => readFlags (set true) rest
      | some (.switch set), some v =>
        match Text.readBool v with
        | some b => readFlags (set b) rest
        | none => .error .malformed
      | some (.value set), some v =>
        match set v with
        | some f => readFlags f rest
        | none => .error .malformed
      | some (.value set), none =>
        match rest with
        | [] => .error .malformed
        | v :: rest =>
          match set v with
          | some f => readFlags f rest
          | none => .error .malformed
termination_by args.length

end SymbolicLtl.CommandLine
