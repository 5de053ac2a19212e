import SymbolicLtl.Service.Message
import SymbolicLtl.Verifier.Run

/-! The service that checks models for its clients. -/
namespace SymbolicLtl

/-- What a call that failed is reported as. -/
inductive StatusCode where
  | canceled
  | unknown
  | invalidArgument
  | deadlineExceeded
  | failedPrecondition
  | unavailable
deriving DecidableEq, Repr

def StatusCode.name : StatusCode → String
  | canceled => "Canceled"
  | unknown => "Unknown"
  | invalidArgument => "InvalidArgument"
  | deadlineExceeded => "DeadlineExceeded"
  | failedPrecondition => "FailedPrecondition"
  | unavailable => "Unavailable"

structure Status where
  code : StatusCode
  message : String
deriving DecidableEq, Repr

def Status.describe (s : Status) : String :=
  "rpc error: code = " ++ s.code.name ++ " desc = " ++ s.message

/-- The report of a check that ended without an answer. An end of the call counts before a fault of
the translator. -/
def RunError.code : RunError → StatusCode
  | translator (.ended .deadlineExceeded _) => .deadlineExceeded
  | translator (.ended .canceled _) => .canceled
  | translator e => if e.isReported then .failedPrecondition else .unknown
  | model e => if e.isInvalid then .invalidArgument else .unknown
  | emptySpec => .invalidArgument
  | _ => .unknown

/-- A server with the options that it applies before those of a request. -/
structure Server where
  base : List CheckerOption
  verbose : Bool
  translator : Translator

/-- What a server answers to a request: a result or a status, the formula that was translated, and
the log. -/
structure Reply where
  result : Attempt Status Response
  formula : Option String
  events : List Event

namespace Server

def version : String := "psmc/1"

def settings (s : Server) (o : RequestOptions) : Except Method.UnknownName Settings := do
  return .ofOptions (s.base ++ (← o.checkerOptions) ++ if s.verbose then [.verbose] else [])

def check (s : Server) (ending : Option Ending) (request : JsonValue) : Reply :=
  let accepted : Except RequestError (Model × Settings) := do
    let r ← Request.ofValue request
    return (r.model, ← (s.settings r.options).mapError .method)
  match accepted with
  | .error e => ⟨Attempt.refuse ⟨.invalidArgument, e.message⟩, none, []⟩
  | .ok (model, settings) =>
    let report := settings.run s.translator ending model
    ⟨report.result.restate fun e => ⟨e.code, e.message⟩, report.asked, report.events⟩

/-- Answers a request from a client, and logs it. -/
def serve (s : Server) (request : JsonValue) : Reply :=
  let reply := s.check none request
  let error := match reply.result with
    | .error (.refused status) => some status.describe
    | _ => none
  if s.verbose then
    { reply with events := reply.events ++ [.served "/psmc.Checker/Check" error] }
  else reply

end Server
end SymbolicLtl
