import BlockScript.Expr

/-! # Rendering of expressions

Three texts of an expression: fully parenthesized with the operator in front, reverse Polish, and source
text. Parentheses in source text come from grouping nodes alone, so the text of a parsed tree reads back as
the same tree. -/
namespace BlockScript.Expr

/-- As in `(+ 1 (* 2 3))`. -/
def parenthesized : Expr → String
  | .literal v => v.quoted
  | .grouping e => "(group " ++ e.parenthesized ++ ")"
  | .unary op _ e => "(" ++ op.symbol ++ " " ++ e.parenthesized ++ ")"
  | .binary l op _ r => "(" ++ op.symbol ++ " " ++ l.parenthesized ++ " " ++ r.parenthesized ++ ")"
  | .var name => name.lexeme
  | .assign name e => "(= " ++ name.lexeme ++ " " ++ e.parenthesized ++ ")"

/-- Negation has a sign of its own where operators follow their operands. -/
def polishSymbol : UnaryOp → String
  | .not => "!"
  | .negate => "~"

/-- As in `1 2 3 * +`; groupings leave no trace. -/
def reversePolish : Expr → String
  | .literal v => v.quoted
  | .grouping e => e.reversePolish
  | .unary op _ e => e.reversePolish ++ " " ++ polishSymbol op
  | .binary l op _ r => l.reversePolish ++ " " ++ r.reversePolish ++ " " ++ op.symbol
  | .var name => name.lexeme
  | .assign name e => e.reversePolish ++ " " ++ name.lexeme ++ " ="

/-- A literal that is too large for a double, and so reads back as infinity. -/
def overflowingLiteral : String :=
  String.ofList ('1' :: List.replicate 309 '0')

/-- A literal as it is written in source text. There is no literal for infinity, but one that overflows. -/
def literalSource : Value → String
  | .number x =>
    if (BinaryNumber.ofFloat x).2 = BinaryNumber.infinity then overflowingLiteral
    else (Value.number x).text
  | v => v.quoted

/-- As in `1 + 2 * 3`. -/
def source : Expr → String
  | .literal v => literalSource v
  | .grouping e => "(" ++ e.source ++ ")"
  | .unary op _ e => op.symbol ++ e.source
  | .binary l op _ r => l.source ++ " " ++ op.symbol ++ " " ++ r.source
  | .var name => name.lexeme
  | .assign name e => name.lexeme ++ " = " ++ e.source

end BlockScript.Expr
