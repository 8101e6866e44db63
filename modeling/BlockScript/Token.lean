import BlockScript.Value

/-! # Tokens

The kinds of token, the words that are reserved, and the token itself. The literal of a token is the value
that the token stands for, if there is one; `some .nil` (the word `nil`) and `none` are different. -/
namespace BlockScript

inductive Token.Kind where
  | leftParen | rightParen | leftBrace | rightBrace | comma | dot | minus | plus | semicolon | slash | star
  | bang | bangEqual | equal | equalEqual | greater | greaterEqual | less | lessEqual
  | identifier | string | number
  | andKw | classKw | elseKw | falseKw | funKw | forKw | ifKw | nilKw | orKw | printKw | returnKw | superKw
  | thisKw | trueKw | varKw | whileKw
  | eof
deriving DecidableEq, Repr, Inhabited

/-- A token; `line` is the line on which its text ends, counted modulo 2^32. -/
structure Token where
  kind : Token.Kind
  lexeme : String
  literal : Option Value
  line : UInt32
deriving BEq, Inhabited

namespace Token.Kind

def keywords : List (String × Kind) :=
  [("and", andKw), ("class", classKw), ("else", elseKw), ("false", falseKw), ("for", forKw), ("fun", funKw),
   ("if", ifKw), ("nil", nilKw), ("or", orKw), ("print", printKw), ("return", returnKw), ("super", superKw),
   ("this", thisKw), ("true", trueKw), ("var", varKw), ("while", whileKw)]

/-- A word is a keyword only as a whole; any other word is an identifier. -/
def ofWord (word : String) : Kind :=
  (keywords.lookup word).getD identifier

/-- The words at which a new statement surely begins. -/
def beginsStatement : Kind → Bool
  | classKw | funKw | varKw | forKw | ifKw | whileKw | printKw | returnKw => true
  | _ => false

end Token.Kind

/-- The token that marks the end of the input. -/
def Token.atEnd (line : UInt32) : Token :=
  ⟨.eof, "", none, line⟩

end BlockScript
