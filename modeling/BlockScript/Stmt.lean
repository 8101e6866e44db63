import BlockScript.Expr

/-! # Statements -/
namespace BlockScript

inductive Stmt where
  | block (body : List Stmt)
  | expr (e : Expr)
  | print (e : Expr) (line : UInt32)
  | declare (name : Token) (initializer : Option Expr)
deriving Inhabited

namespace Stmt

mutual

/-- The expressions of a statement in source order; blocks are entered. -/
def expressions : Stmt → List Expr
  | .block body => expressionsOfAll body
  | .expr e => [e]
  | .print e _ => [e]
  | .declare _ initializer => initializer.toList

def expressionsOfAll : List Stmt → List Expr
  | [] => []
  | s :: rest => s.expressions ++ expressionsOfAll rest

end

end Stmt
end BlockScript
