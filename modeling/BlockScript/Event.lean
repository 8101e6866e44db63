import BlockScript.SyntaxError
import BlockScript.RuntimeError
import BlockScript.RunStatus

/-! # Events

What a run records in its log. An event is shown with a level, the name of the part that it comes from, and
named fields. -/
namespace BlockScript

inductive Event where
  | scanned (tokens errors : Nat)
  | skippedDeclaration (error : SyntaxError)
  | parsed (statements errors : Nat)
  | enteredScope (depth : Nat)
  | leftScope (depth released : Nat)
  | runtimeError (error : RuntimeError)
  | finishedUnit (status : RunStatus)
  | reportLost (cause : String)
deriving DecidableEq, Repr

namespace Event

inductive Level where
  | trace | debug | warn
deriving DecidableEq, Repr

def Level.text : Level → String
  | .trace => "TRACE"
  | .debug => "DEBUG"
  | .warn => "WARN"

def level : Event → Level
  | .enteredScope _ | .leftScope _ _ => .trace
  | .reportLost _ => .warn
  | _ => .debug

def target : Event → String
  | .scanned _ _ => "finch::scanner"
  | .skippedDeclaration _ | .parsed _ _ => "finch::parser"
  | .enteredScope _ | .leftScope _ _ => "finch::environment"
  | .runtimeError _ => "finch::interpreter"
  | .finishedUnit _ | .reportLost _ => "finch::session"

def message : Event → String
  | .scanned _ _ => "scanned source"
  | .skippedDeclaration _ => "skipping malformed declaration"
  | .parsed _ _ => "parsed token stream"
  | .enteredScope _ => "entered scope"
  | .leftScope _ _ => "left scope"
  | .runtimeError _ => "runtime error"
  | .finishedUnit _ => "finished input unit"
  | .reportLost _ => "couldn't write to the error stream"

/-- The fields beside the message. -/
def details : Event → List (String × String)
  | .scanned tokens errors => [("tokens", toString tokens), ("errors", toString errors)]
  | .skippedDeclaration error => [("error", error.text)]
  | .parsed statements errors => [("statements", toString statements), ("errors", toString errors)]
  | .enteredScope depth => [("depth", toString depth)]
  | .leftScope depth released => [("depth", toString depth), ("released", toString released)]
  | .runtimeError error => [("line", toString error.line.toNat), ("error.kind", error.fault.text)]
  | .finishedUnit status => [("status", status.text)]
  | .reportLost cause => [("error", cause)]

def fields (e : Event) : List (String × String) :=
  ("message", e.message) :: e.details

end Event
end BlockScript
