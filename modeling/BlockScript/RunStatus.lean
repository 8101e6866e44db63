/-! # Run status

How the run of one unit of input ended. -/
namespace BlockScript

structure RunStatus where
  hadSyntaxError : Bool := false
  hadRuntimeError : Bool := false
deriving DecidableEq, Repr

namespace RunStatus

def exitCode (s : RunStatus) : UInt8 :=
  if s.hadSyntaxError then 65 else if s.hadRuntimeError then 70 else 0

def text (s : RunStatus) : String :=
  "RunStatus \x7b had_syntax_error: " ++ toString s.hadSyntaxError ++
    ", had_runtime_error: " ++ toString s.hadRuntimeError ++ " \x7d"

end RunStatus
end BlockScript
