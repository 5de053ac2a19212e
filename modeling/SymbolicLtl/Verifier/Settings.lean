import SymbolicLtl.Reachability.Strategy

/-! Settings of a check, given by a list of options. -/
namespace SymbolicLtl

inductive CheckerOption where
  | parallel (value : Bool)
  | strategy (name : String)
  | slices (dir : Direction) (vars : List Int)
  | executors (count : Int)
  | method (method : Method)
  | verbose
  | safety
  | extendTrans (indexes : List Int)
deriving Repr

def bracketedInts (xs : List Int) : String := "[" ++ " ".intercalate (xs.map toString) ++ "]"

namespace CheckerOption

def describe : CheckerOption → String
  | parallel b => "ParallelOption\x7bParallel:" ++ toString b ++ "\x7d"
  | strategy name => "StrategyOption\x7bName:" ++ name ++ "\x7d"
  | slices dir vars =>
    "SlicesOption\x7bDir:" ++ dir.name ++ " Vars:" ++ bracketedInts vars ++ "\x7d"
  | executors n => "NumExecutorsOption\x7bN:" ++ toString n ++ "\x7d"
  | method m => "TransMethodOption\x7bMethod:" ++ m.name ++ "\x7d"
  | verbose => "VerboseOption\x7b\x7d"
  | safety => "SafetyOption\x7b\x7d"
  | extendTrans indexes => "ExtendTransOption\x7bIndexes:" ++ bracketedInts indexes ++ "\x7d"

end CheckerOption

structure Settings where
  parallel : Bool
  /-- The strategy of a parallel check. -/
  strategy : String
  executors : Int
  forwardVars : List Int
  backwardVars : List Int
  method : Method
  verbose : Bool
  safety : Bool
  extendTrans : List Int
deriving Repr

namespace Settings

/-- The settings without any option. -/
def default : Settings where
  parallel := false
  strategy := messagePassingName
  executors := 0
  forwardVars := []
  backwardVars := []
  method := .partition
  verbose := false
  safety := false
  extendTrans := []

/-- Lists grow, other settings are replaced. -/
def set (s : Settings) : CheckerOption → Settings
  | .parallel b => { s with parallel := b }
  | .strategy name => { s with strategy := name }
  | .slices .forward vars => { s with forwardVars := s.forwardVars ++ vars }
  | .slices .backward vars => { s with backwardVars := s.backwardVars ++ vars }
  | .executors n => { s with executors := n }
  | .method m => { s with method := m }
  | .verbose => { s with verbose := true }
  | .safety => { s with safety := true }
  | .extendTrans indexes => { s with extendTrans := s.extendTrans ++ indexes }

/-- Options are applied in their order. -/
def ofOptions (options : List CheckerOption) : Settings := options.foldl set default

def strategyName (s : Settings) : String := if s.parallel then s.strategy else "sequential"

end Settings
end SymbolicLtl
