import BlockScript.Reading
import BlockScript.Rendering

/-! # Round trips

What becomes of an expression when its source text is read again as a statement. -/
namespace BlockScript

inductive RoundTrip where
  | expression (reread : Expr)
  | statements (count : Nat)
  | rejected (errors : List SyntaxError)

def Expr.roundTrip (e : Expr) : RoundTrip :=
  match readProgram (e.source ++ ";") with
  | .ok [.expr reread] => .expression reread
  | .ok statements => .statements statements.length
  | .error errors => .rejected errors

end BlockScript
