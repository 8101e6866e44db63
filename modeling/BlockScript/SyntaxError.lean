import BlockScript.Token

/-! # Syntax errors

What can be wrong with a source text (`Complaint`), and the error that reports it (`SyntaxError`). -/
namespace BlockScript

inductive Complaint where
  | unexpectedCharacter
  | unterminatedString
  | expectName
  | expectExpression
  | expectClosingParen
  | expectClosingBrace
  | expectSemicolonAfterDeclaration
  | expectSemicolonAfterPrinted
  | expectSemicolonAfterExpression
  | invalidTarget
  | selfReference (name : String)
deriving DecidableEq, Repr

def Complaint.text : Complaint → String
  | .unexpectedCharacter => "Unexpected character."
  | .unterminatedString => "Unterminated string."
  | .expectName => "Expect variable name."
  | .expectExpression => "Expect expression."
  | .expectClosingParen => "Expect ')' after expression."
  | .expectClosingBrace => "Expect '\x7d' after block."
  | .expectSemicolonAfterDeclaration => "Expect ';' after variable declaration."
  | .expectSemicolonAfterPrinted => "Expect ';' after value."
  | .expectSemicolonAfterExpression => "Expect ';' after expression."
  | .invalidTarget => "Invalid assignment target."
  | .selfReference name => "Can't read variable '" ++ name ++ "' in its own initializer."

namespace SyntaxError

inductive Location where
  | unspecified
  | atEnd
  | atLexeme (lexeme : String)
deriving DecidableEq, Repr

def Location.text : Location → String
  | .unspecified => ""
  | .atEnd => " at end"
  | .atLexeme lexeme => " at '" ++ lexeme ++ "'"

/-- Where an error that blames a token is located. -/
def Location.ofToken (t : Token) : Location :=
  if t.kind = .eof then .atEnd else .atLexeme t.lexeme

end SyntaxError

structure SyntaxError where
  line : UInt32
  location : SyntaxError.Location
  message : String
deriving DecidableEq, Repr

namespace SyntaxError

def text (e : SyntaxError) : String :=
  "[line " ++ toString e.line.toNat ++ "] Error" ++ e.location.text ++ ": " ++ e.message

/-- The texts of several errors, one on a line. -/
def texts (es : List SyntaxError) : String :=
  "\n".intercalate (es.map text)

end SyntaxError
end BlockScript
