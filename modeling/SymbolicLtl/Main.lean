import SymbolicLtl.CommandLine.Run
import SymbolicLtl.Shell.System

/-! The command. Models and translator scripts are read from files. -/
namespace SymbolicLtl.CommandLine

def readText (path : String) : IO (Except PathError String) := do
  try
    return .ok (← IO.FS.readFile path)
  catch _ => return .error .missing

/-- Runs the command on a system whose programs may depend on the translator that is asked for. -/
def execute (system : (translator : String) → IO Programs) (args : List String) : IO UInt32 := do
  let (flags, rest) := (readFlags {} args).toOption.getD ({ help := true }, [])
  let file ← readText (rest.headD "")
  let programs ← system flags.translator
  let start ← IO.monoNanosNow
  let outcome := run ⟨fun _ => file, programs, fun _ => .error .missing, 0⟩ args
  if flags.help || rest.length != 1 then IO.eprintln "Usage: psmc [OPTIONS] MODEL.json"
  if let some text := outcome.error then IO.eprintln ("Error: " ++ text)
  let finish ← IO.monoNanosNow
  IO.print (outcome.output (Text.duration ((finish : Int) - start)))
  return outcome.exit.toUInt32

end SymbolicLtl.CommandLine

open SymbolicLtl CommandLine in
def main (args : List String) : IO UInt32 :=
  execute (fun path => return Shell.withScript path (← readText path).toOption) args
