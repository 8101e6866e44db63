import BlockScript.ParseState

/-! # Parsed tokens

The statements and the faults of a list of tokens. The input ends before the first end marker; a list
without one ends on the line of its last token. -/
namespace BlockScript

structure Parsed where
  statements : List Stmt
  faults : List Fault

namespace Parsed

/-- The end marker of a list of tokens, or the one that it lacks. -/
def endMarker (tokens : List Token) : Token :=
  (tokens.find? fun t => t.kind = .eof).getD (.atEnd ((tokens.getLast?.map Token.line).getD 1))

def ofTokens (tokens : List Token) : Parsed :=
  let final := (tokens.takeWhile fun t => t.kind ≠ .eof).foldl ParseState.feed {}
  ⟨final.statements, final.faultsAtEnd (endMarker tokens)⟩

def errors (p : Parsed) : List SyntaxError := p.faults.map Fault.error

/-- The errors for which a declaration was given up. -/
def skipped (p : Parsed) : List SyntaxError := (p.faults.filter Fault.isFatal).map Fault.error

/-- The statements, if there is no fault at all. -/
def program (p : Parsed) : Except (List SyntaxError) (List Stmt) :=
  if p.errors.isEmpty then .ok p.statements else .error p.errors

end Parsed
end BlockScript
