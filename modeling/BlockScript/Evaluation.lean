import BlockScript.RuntimeError
import BlockScript.Scopes

/-! # Evaluation of expressions

Operands are evaluated from left to right, and all of them before the operator looks at their types. A
store takes place after its value is known. What has been stored stays when a later step fails. -/
namespace BlockScript

abbrev Eval := EStateM RuntimeError Scopes

def UnaryOp.apply : UnaryOp → Value → Except RuntimeFault Value
  | .not, v => .ok (.bool !v.isTruthy)
  | .negate, .number x => .ok (.number (-x))
  | .negate, _ => .error (.numberOperand .negate)

namespace BinaryOp

def onNumbers (op : BinaryOp) (x y : Float) : Value :=
  match op with
  | .equal => .bool (x == y)
  | .notEqual => .bool (x != y)
  | .greater => .bool (x > y)
  | .greaterEqual => .bool (x ≥ y)
  | .less => .bool (x < y)
  | .lessEqual => .bool (x ≤ y)
  | .add => .number (x + y)
  | .subtract => .number (x - y)
  | .multiply => .number (x * y)
  | .divide => .number (x / y)

/-- Any two values can be compared for equality, strings can be added, and all else needs numbers. -/
def apply (op : BinaryOp) (left right : Value) : Except RuntimeFault Value :=
  match op, left, right with
  | .equal, _, _ => .ok (.bool (left == right))
  | .notEqual, _, _ => .ok (.bool (left != right))
  | .add, .string s, .string t => .ok (.string (s ++ t))
  | op, .number x, .number y => .ok (op.onNumbers x y)
  | .add, _, _ => .error .addOperands
  | op, _, _ => .error (.numberOperands op)

end BinaryOp

namespace Eval

/-- The outcome of an operator on the given line. -/
def ofOperator (line : UInt32) : Except RuntimeFault Value → Eval Value
  | .ok v => pure v
  | .error fault => throw ⟨line, fault⟩

def undefined (name : Token) : RuntimeError := ⟨name.line, .undefinedVariable name.lexeme⟩

def load (name : Token) : Eval Value := do
  match (← get).get? name.lexeme with
  | some v => pure v
  | none => throw (undefined name)

def store (name : Token) (v : Value) : Eval Value := do
  match (← get).assign? name.lexeme v with
  | some scopes => set scopes; pure v
  | none => throw (undefined name)

theorem get_apply (s : Scopes) : (get : Eval Scopes) s = .ok s s := rfl

section Variables
variable {s s' : Scopes} {name : Token} {v : Value}

theorem load_of_bound (h : s.get? name.lexeme = some v) : load name s = .ok v s := by
  unfold load
  simp only [bind, EStateM.bind, get_apply, h]
  rfl

theorem load_of_unbound (h : s.get? name.lexeme = none) :
    load name s = .error (undefined name) s := by
  unfold load
  simp only [bind, EStateM.bind, get_apply, h]
  rfl

theorem store_of_bound (h : s.assign? name.lexeme v = some s') : store name v s = .ok v s' := by
  unfold store
  simp only [bind, EStateM.bind, get_apply, h]
  rfl

theorem store_of_unbound (h : s.assign? name.lexeme v = none) :
    store name v s = .error (undefined name) s := by
  unfold store
  simp only [bind, EStateM.bind, get_apply, h]
  rfl

end Variables
end Eval

def Expr.eval : Expr → Eval Value
  | .literal v => pure v
  | .grouping e => e.eval
  | .unary op line e => do
    let v ← e.eval
    Eval.ofOperator line (op.apply v)
  | .binary l op line r => do
    let x ← l.eval
    let y ← r.eval
    Eval.ofOperator line (op.apply x y)
  | .var name => Eval.load name
  | .assign name e => do
    let v ← e.eval
    Eval.store name v

end BlockScript
