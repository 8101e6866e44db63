import BlockScript.Piece

/-! # Scanned sources

The tokens and the errors of a source, read off its pieces. The last token is always the end marker, on
the line on which the source ends. -/
namespace BlockScript

/-- The value that a token of the given kind and text stands for. -/
def Token.Kind.literal? (kind : Token.Kind) (text : List Char) : Option Value :=
  match kind with
  | .string => some (.string (String.ofList text.tail.dropLast))
  | .number => some (.number (DecimalText.read text))
  | .trueKw => some (.bool true)
  | .falseKw => some (.bool false)
  | .nilKw => some .nil
  | _ => none

namespace Piece

def token? (p : Piece) : Option Token :=
  match p.role with
  | .token kind => some ⟨kind, String.ofList p.text, kind.literal? p.text, p.line⟩
  | _ => none

def complaint? (p : Piece) : Option Complaint :=
  match p.role with
  | .stray => some .unexpectedCharacter
  | .openString => some .unterminatedString
  | _ => none

def error? (p : Piece) : Option SyntaxError :=
  p.complaint?.map fun complaint => ⟨p.line, .unspecified, complaint.text⟩

end Piece

structure Scanned where
  tokens : List Token
  errors : List SyntaxError

namespace Scanned

def ofChars (cs : List Char) : Scanned :=
  let pieces := Piece.pieces 1 cs
  { tokens := pieces.filterMap Piece.token? ++ [.atEnd (1 + Piece.newlines cs)]
    errors := pieces.filterMap Piece.error? }

def ofSource (source : String) : Scanned := ofChars source.toList

end Scanned
end BlockScript
