import BlockScript.SyntaxError

/-! # Pieces of a source text

A source is cut, from left to right, into pieces that put together give the source back
(`flatMap_text_pieces`): single blanks, comments, tokens, characters that start no token, and at most one
string that is never closed. `extent` decides where a piece ends; a token always takes all it can. -/
namespace BlockScript

namespace Piece

inductive Role where
  | gap
  | token (kind : Token.Kind)
  | stray
  | openString
deriving DecidableEq, Repr

end Piece

/-- A piece of the source; `line` is the line on which it ends. -/
structure Piece where
  role : Piece.Role
  text : List Char
  line : UInt32
deriving DecidableEq, Repr

namespace Piece

def isBlank (c : Char) : Bool := c == ' ' || c == '\t' || c == '\r' || c == '\n'

def isNameStart (c : Char) : Bool := c.isAlpha || c == '_'

def isNamePart (c : Char) : Bool := c.isAlphanum || c == '_'

/-- The token that the character is on its own. -/
def symbol? : Char → Option Token.Kind
  | '(' => some .leftParen
  | ')' => some .rightParen
  | '{' => some .leftBrace
  | '}' => some .rightBrace
  | ',' => some .comma
  | '.' => some .dot
  | '-' => some .minus
  | '+' => some .plus
  | ';' => some .semicolon
  | '/' => some .slash
  | '*' => some .star
  | '!' => some .bang
  | '=' => some .equal
  | '>' => some .greater
  | '<' => some .less
  | _ => none

/-- The token that the character forms with an `=` after it. -/
def symbolEqual? : Char → Option Token.Kind
  | '!' => some .bangEqual
  | '=' => some .equalEqual
  | '>' => some .greaterEqual
  | '<' => some .lessEqual
  | _ => none

/-- How many of the characters after a digit belong to the same number. A point belongs to it only if a
digit follows the point. -/
def numberExtent (cs : List Char) : Nat :=
  let whole := (cs.takeWhile Char.isDigit).length
  match cs.drop whole with
  | '.' :: d :: rest => if d.isDigit then whole + 2 + (rest.takeWhile Char.isDigit).length else whole
  | _ => whole

/-- What begins with `c` when `cs` follows, and how many characters of `cs` belong to it. -/
def extent (c : Char) (cs : List Char) : Role × Nat :=
  if isBlank c then (.gap, 0)
  else if c = '/' ∧ cs.head? = some '/' then (.gap, (cs.takeWhile (· != '\n')).length)
  else if c = '"' then
    let inside := (cs.takeWhile (· != '"')).length
    if inside < cs.length then (.token .string, inside + 1) else (.openString, inside)
  else if c.isDigit then (.token .number, numberExtent cs)
  else if isNameStart c then
    let more := cs.takeWhile isNamePart
    (.token (.ofWord (String.ofList (c :: more))), more.length)
  else match symbolEqual? c, symbol? c with
    | some both, some alone => if cs.head? = some '=' then (.token both, 1) else (.token alone, 0)
    | _, some alone => (.token alone, 0)
    | _, none => (.stray, 0)

def newlines (cs : List Char) : UInt32 := UInt32.ofNat (cs.count '\n')

/-- The piece that begins with `c`, on the given line. -/
def first (line : UInt32) (c : Char) (cs : List Char) : Piece :=
  let text := c :: cs.take (extent c cs).2
  ⟨(extent c cs).1, text, line + newlines text⟩

/-- Cuts a source that begins on the given line; the pieces already cut come newest first. -/
def cut (done : List Piece) (line : UInt32) : List Char → List Piece
  | [] => done.reverse
  | c :: cs => cut (first line c cs :: done) (first line c cs).line (cs.drop (extent c cs).2)
termination_by cs => cs.length
decreasing_by simp only [List.length_drop, List.length_cons]; omega

/-- The pieces of a source that begins on the given line. -/
def pieces (line : UInt32) (cs : List Char) : List Piece := cut [] line cs

theorem cut_eq (done : List Piece) (line : UInt32) (cs : List Char) :
    cut done line cs = done.reverse ++ pieces line cs := by
  induction hn : cs.length using Nat.strongRecOn generalizing done line cs with
  | ind n ih =>
    cases cs with
    | nil => simp [pieces, cut]
    | cons c cs =>
      have hlt : (cs.drop (extent c cs).2).length < n := by
        rw [← hn, List.length_drop, List.length_cons]; omega
      rw [pieces, cut, cut, ih _ hlt (first line c cs :: done) _ _ rfl, ih _ hlt [first line c cs] _ _ rfl]
      simp

@[simp] theorem pieces_nil (line : UInt32) : pieces line [] = [] := by
  simp [pieces, cut]

theorem pieces_cons (line : UInt32) (c : Char) (cs : List Char) :
    pieces line (c :: cs) =
      first line c cs :: pieces (first line c cs).line (cs.drop (extent c cs).2) := by
  rw [pieces, cut, cut_eq]
  rfl

theorem first_text_append (line : UInt32) (c : Char) (cs : List Char) :
    (first line c cs).text ++ cs.drop (extent c cs).2 = c :: cs := by
  simp [first]

theorem flatMap_text_pieces (line : UInt32) (cs : List Char) :
    (pieces line cs).flatMap text = cs := by
  induction hn : cs.length using Nat.strongRecOn generalizing line cs with
  | ind n ih =>
    cases cs with
    | nil => simp
    | cons c cs =>
      have hlt : (cs.drop (extent c cs).2).length < n := by
        rw [← hn, List.length_drop, List.length_cons]; omega
      rw [pieces_cons, List.flatMap_cons, ih _ hlt _ _ rfl, first_text_append]

end Piece
end BlockScript
