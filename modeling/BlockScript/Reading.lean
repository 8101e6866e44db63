import BlockScript.Scanned
import BlockScript.Parsed
import BlockScript.Event

/-! # Readings

A source text with all that is read off it. Its tokens are parsed even if scanning found errors; the source
has a program only if neither stage found any. -/
namespace BlockScript

structure Reading where
  scanned : Scanned
  parsed : Parsed

namespace Reading

def ofSource (source : String) : Reading :=
  let scanned := Scanned.ofSource source
  ⟨scanned, .ofTokens scanned.tokens⟩

def errors (r : Reading) : List SyntaxError := r.scanned.errors ++ r.parsed.errors

def program (r : Reading) : Except (List SyntaxError) (List Stmt) :=
  if r.errors.isEmpty then .ok r.parsed.statements else .error r.errors

def events (r : Reading) : List Event :=
  [.scanned r.scanned.tokens.length r.scanned.errors.length] ++
    r.parsed.skipped.map .skippedDeclaration ++
    [.parsed r.parsed.statements.length r.parsed.errors.length]

end Reading

/-- The program that a source text is, or everything that is wrong with it. -/
def readProgram (source : String) : Except (List SyntaxError) (List Stmt) :=
  (Reading.ofSource source).program

end BlockScript
