import BlockScript.Stmt
import BlockScript.SyntaxError

/-! # Statements in the making

The grammar:

    declaration → "var" NAME ("=" expression)? ";" | statement
    statement   → "print" expression ";" | "{" declaration* "}" | expression ";"
    expression  → equality ("=" expression)?
    equality    → comparison (("==" | "!=") comparison)*
    comparison  → sum ((">" | ">=" | "<" | "<=") sum)*
    sum         → product (("+" | "-") product)*
    product     → unary (("*" | "/") unary)*
    unary       → ("!" | "-")? primary
    primary     → "true" | "false" | "nil" | NUMBER | STRING | NAME | "(" expression ")"

Tokens are taken one at a time. What has been read but cannot be completed yet is kept in a `ParseState`:
the statements of the open blocks, and a `Mode` that says what may come next. A token that cannot come
next is a fault; the declaration around it is given up, and the tokens up to the next `;` or up to a word
that begins a statement are skipped. An assignment to something other than a name is a fault too, but only
its right side is given up. -/
namespace BlockScript

/-- A token that is to blame for an error; `position` counts the tokens before it. -/
structure Fault where
  position : Nat
  token : Token
  complaint : Complaint

def Fault.error (f : Fault) : SyntaxError :=
  ⟨f.token.line, .ofToken f.token, f.complaint.text⟩

/-- Whether the declaration around the fault is given up. -/
def Fault.isFatal (f : Fault) : Bool := f.complaint != .invalidTarget

namespace ParseState

/-- What the expression being read is for. -/
inductive Goal where
  | effect
  | print (line : UInt32)
  | initializer (name : Token)

def Goal.finish : Goal → Expr → Stmt
  | .effect, e => .expr e
  | .print line, e => .print e line
  | .initializer name, e => .declare name (some e)

/-- The complaint when the expression is followed by something other than `;`. -/
def Goal.unfinished : Goal → Complaint
  | .effect => .expectSemicolonAfterExpression
  | .print _ => .expectSemicolonAfterPrinted
  | .initializer _ => .expectSemicolonAfterDeclaration

/-- Whether the expression is the initializer of the given name. -/
def Goal.defines (goal : Goal) (name : String) : Bool :=
  match goal with
  | .initializer declared => declared.lexeme == name
  | _ => false

/-- An expression that waits for the one now being read. -/
inductive Frame where
  | paren
  | unary (op : UnaryOp) (line : UInt32)
  | binary (left : Expr) (op : BinaryOp) (line : UInt32)
  | assign (target : Expr) (position : Nat) (equals : Token)

/-- What may come next. -/
inductive Mode where
  | ready
  | name
  | afterName (name : Token)
  | operand (goal : Goal) (stack : List Frame)
  | operator (goal : Goal) (stack : List Frame) (e : Expr)
  | skipping
  | skippingNext

/-- Completes the operations that bind at least as tightly as `level`. -/
def reduce (level : Nat) : List Frame → Expr → List Frame × Expr
  | .binary left op line :: stack, e =>
    if level ≤ op.level then reduce level stack (.binary left op line e)
    else (.binary left op line :: stack, e)
  | stack, e => (stack, e)

/-- Completes everything inside the innermost open parenthesis. An assignment to something other than a
name leaves its target, and a fault. -/
def settle : List Frame → Expr → List Fault → List Frame × Expr × List Fault
  | .binary left op line :: stack, e, faults => settle stack (.binary left op line e) faults
  | .assign (.var name) _ _ :: stack, e, faults => settle stack (.assign name e) faults
  | .assign target position equals :: stack, _, faults =>
    settle stack target (⟨position, equals, .invalidTarget⟩ :: faults)
  | stack, e, faults => (stack, e, faults)

/-- The mode after a primary expression. -/
def deliver (goal : Goal) : List Frame → Expr → Mode
  | .unary op line :: stack, e => .operator goal stack (.unary op line e)
  | stack, e => .operator goal stack e

end ParseState

open ParseState in
/-- The state between two tokens; `body` holds the statements of the innermost open block, `outer` those of
the blocks around it, and both and `faults` have the newest first. -/
structure ParseState where
  position : Nat := 0
  mode : Mode := .ready
  body : List Stmt := []
  outer : List (List Stmt) := []
  faults : List Fault := []

namespace ParseState

def emit (s : ParseState) (statement : Stmt) : ParseState :=
  { s with mode := .ready, body := statement :: s.body }

/-- Gives the declaration up with `t` as the first token to skip. -/
def fail (s : ParseState) (t : Token) (complaint : Complaint) : ParseState :=
  { s with
    mode := if t.kind = .semicolon then .ready else .skipping
    faults := ⟨s.position, t, complaint⟩ :: s.faults }

/-- Takes a token where an operand must begin. One operator may stand before a primary. A name that occurs
in its own initializer is blamed when it has been read already, so the token after it is the first to be
skipped, whatever it is. -/
def acceptOperand (s : ParseState) (goal : Goal) (stack : List Frame) (t : Token) : ParseState :=
  let primary (e : Expr) : ParseState := { s with mode := deliver goal stack e }
  match t.kind with
  | .falseKw => primary (.literal (.bool false))
  | .trueKw => primary (.literal (.bool true))
  | .nilKw => primary (.literal .nil)
  | .number | .string =>
    match t.literal with
    | some value => primary (.literal value)
    | none => s.fail t .expectExpression
  | .identifier =>
    if goal.defines t.lexeme then
      { s with mode := .skippingNext, faults := ⟨s.position, t, .selfReference t.lexeme⟩ :: s.faults }
    else primary (.var t)
  | .leftParen => { s with mode := .operand goal (.paren :: stack) }
  | kind =>
    match stack, UnaryOp.ofKind? kind with
    | .unary _ _ :: _, _ | _, none => s.fail t .expectExpression
    | _, some op => { s with mode := .operand goal (.unary op t.line :: stack) }

/-- Takes a token after a complete operand. -/
def acceptOperator (s : ParseState) (goal : Goal) (stack : List Frame) (e : Expr) (t : Token) :
    ParseState :=
  match BinaryOp.ofKind? t.kind with
  | some op =>
    let (stack, left) := reduce op.level stack e
    { s with mode := .operand goal (.binary left op t.line :: stack) }
  | none =>
    if t.kind = .equal then
      let (stack, target) := reduce 0 stack e
      { s with mode := .operand goal (.assign target s.position t :: stack) }
    else
      match settle stack e s.faults with
      | (.paren :: stack, e, faults) =>
        if t.kind = .rightParen then { s with mode := deliver goal stack (.grouping e), faults }
        else { s with faults }.fail t .expectClosingParen
      | (_, e, faults) =>
        if t.kind = .semicolon then { s with faults }.emit (goal.finish e)
        else { s with faults }.fail t goal.unfinished

/-- Takes the first token of a declaration, or the brace that closes the innermost block. -/
def begin (s : ParseState) (t : Token) : ParseState :=
  match t.kind, s.outer with
  | .varKw, _ => { s with mode := .name }
  | .printKw, _ => { s with mode := .operand (.print t.line) [] }
  | .leftBrace, outer => { s with mode := .ready, body := [], outer := s.body :: outer }
  | .rightBrace, body :: outer => { s with mode := .ready, body := .block s.body.reverse :: body, outer }
  | _, _ => s.acceptOperand .effect [] t

def skip (s : ParseState) (t : Token) : ParseState :=
  { s with mode := if t.kind = .semicolon then .ready else .skipping }

def accept (s : ParseState) (t : Token) : ParseState :=
  match s.mode with
  | .ready => s.begin t
  | .name => if t.kind = .identifier then { s with mode := .afterName t } else s.fail t .expectName
  | .afterName name =>
    match t.kind with
    | .equal => { s with mode := .operand (.initializer name) [] }
    | .semicolon => s.emit (.declare name none)
    | _ => s.fail t .expectSemicolonAfterDeclaration
  | .operand goal stack => s.acceptOperand goal stack t
  | .operator goal stack e => s.acceptOperator goal stack e t
  | .skipping => if t.kind.beginsStatement then s.begin t else s.skip t
  | .skippingNext => s.skip t

def feed (s : ParseState) (t : Token) : ParseState :=
  { s.accept t with position := s.position + 1 }

@[simp] theorem position_feed (s : ParseState) (t : Token) : (s.feed t).position = s.position + 1 := rfl

theorem position_foldl_feed (tokens : List Token) (s : ParseState) :
    (tokens.foldl feed s).position = s.position + tokens.length := by
  induction tokens generalizing s with
  | nil => rfl
  | cons t rest ih => simp only [List.foldl_cons, ih, position_feed, List.length_cons]; omega

/-- The statements of the program itself, in order. Blocks that are still open do not count. -/
def statements (s : ParseState) : List Stmt :=
  ((s.outer.getLast?).getD s.body).reverse

/-- All faults in the order in which they were found, when the input ends here: a declaration that is
still being read and each open block are at fault. -/
def faultsAtEnd (s : ParseState) (eof : Token) : List Fault :=
  let unfinished :=
    match s.mode with
    | .ready | .skipping | .skippingNext => s.faults
    | _ => (s.accept eof).faults
  unfinished.reverse ++ s.outer.map fun _ => ⟨s.position, eof, .expectClosingBrace⟩

end ParseState
end BlockScript
