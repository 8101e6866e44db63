import BlockScript.Expr

/-! # Runtime errors

The faults that stop a running program, with the line that they are reported for. -/
namespace BlockScript

inductive RuntimeFault where
  | undefinedVariable (name : String)
  | numberOperand (op : UnaryOp)
  | numberOperands (op : BinaryOp)
  | addOperands
  | output (cause : String)
deriving DecidableEq, Repr

def RuntimeFault.text : RuntimeFault → String
  | .undefinedVariable name => "Undefined variable '" ++ name ++ "'."
  | .numberOperand op => "Operand of '" ++ op.symbol ++ "' must be a number."
  | .numberOperands op => "Operands of '" ++ op.symbol ++ "' must be numbers."
  | .addOperands => "Operands of '+' must be two numbers or two strings."
  | .output cause => "Couldn't write program output: " ++ cause

structure RuntimeError where
  line : UInt32
  fault : RuntimeFault
deriving DecidableEq, Repr

def RuntimeError.text (e : RuntimeError) : String :=
  e.fault.text ++ "\n[line " ++ toString e.line.toNat ++ "]"

end BlockScript
