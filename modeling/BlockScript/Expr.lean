import BlockScript.Token

/-! # Expressions

Operators and expression trees. Operators remember the line of their token, names their whole token. -/
namespace BlockScript

inductive UnaryOp where
  | not | negate
deriving DecidableEq, Repr, Inhabited

inductive BinaryOp where
  | equal | notEqual | greater | greaterEqual | less | lessEqual | add | subtract | multiply | divide
deriving DecidableEq, Repr, Inhabited

namespace UnaryOp

def symbol : UnaryOp → String
  | .not => "!"
  | .negate => "-"

def ofKind? : Token.Kind → Option UnaryOp
  | .bang => some .not
  | .minus => some .negate
  | _ => none

end UnaryOp

namespace BinaryOp

def symbol : BinaryOp → String
  | .equal => "=="
  | .notEqual => "!="
  | .greater => ">"
  | .greaterEqual => ">="
  | .less => "<"
  | .lessEqual => "<="
  | .add => "+"
  | .subtract => "-"
  | .multiply => "*"
  | .divide => "/"

def ofKind? : Token.Kind → Option BinaryOp
  | .equalEqual => some .equal
  | .bangEqual => some .notEqual
  | .greater => some .greater
  | .greaterEqual => some .greaterEqual
  | .less => some .less
  | .lessEqual => some .lessEqual
  | .plus => some .add
  | .minus => some .subtract
  | .star => some .multiply
  | .slash => some .divide
  | _ => none

/-- How tightly the operator binds: equality, comparison, sum, product. -/
def level : BinaryOp → Nat
  | .equal | .notEqual => 0
  | .greater | .greaterEqual | .less | .lessEqual => 1
  | .add | .subtract => 2
  | .multiply | .divide => 3

end BinaryOp

inductive Expr where
  | literal (value : Value)
  | grouping (inner : Expr)
  | unary (op : UnaryOp) (line : UInt32) (operand : Expr)
  | binary (left : Expr) (op : BinaryOp) (line : UInt32) (right : Expr)
  | var (name : Token)
  | assign (name : Token) (value : Expr)
deriving BEq, Inhabited

end BlockScript
