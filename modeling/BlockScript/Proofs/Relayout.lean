import BlockScript.Proofs.LexicalRules

/-!
# Tokens do not depend on the layout

A blank ends every token, so the lexemes of a source can be set apart by any blanks and comments that begin
with a blank: each is scanned again as the token that it was, on whatever line it now stands.
-/
namespace BlockScript

/-- Blanks, and comments with the line break that ends them. -/
inductive IsLayout : List Char → Prop where
  | nil : IsLayout []
  | blank {c : Char} {rest : List Char} (hc : Piece.isBlank c = true) (h : IsLayout rest) :
      IsLayout (c :: rest)
  | comment {body rest : List Char} (hbody : '\n' ∉ body) (h : IsLayout rest) :
      IsLayout ('/' :: '/' :: (body ++ '\n' :: rest))

/-- Layout that begins with a blank. -/
def IsSeparator (text : List Char) : Prop :=
  IsLayout text ∧ ∃ c rest, text = c :: rest ∧ Piece.isBlank c = true

/-- Whether the text consists of the lexemes with separators behind them; the last lexeme may go without. -/
inductive SetApart : List String → List Char → Prop where
  | nil : SetApart [] []
  | last (lexeme : String) : SetApart [lexeme] lexeme.toList
  | cons (lexeme : String) {lexemes : List String} {separator rest : List Char}
      (hseparator : IsSeparator separator) (h : SetApart lexemes rest) :
      SetApart (lexeme :: lexemes) (lexeme.toList ++ (separator ++ rest))

/-- The token without its place in the source. -/
def Token.eraseLine (t : Token) : Token := { t with line := 0 }

/-- Whether the token can have come from a source, by the lexical rules. -/
def Token.Conforms (t : Token) : Prop :=
  t.kind.Matches t.lexeme.toList ∧ t.literal = t.kind.literal? t.lexeme.toList

namespace Piece

theorem conforms_of_mem_pieces {line : UInt32} {cs : List Char} {p : Piece} {t : Token}
    (hp : p ∈ pieces line cs) (ht : p.token? = some t) : t.Conforms := by
  obtain ⟨before, c, rest, -, rfl⟩ := exists_first_of_mem_pieces hp
  obtain ⟨kind, hrole, rfl⟩ := token?_eq_some_iff.1 ht
  have hleads := leads_extent c rest
  have hrole : (extent c rest).1 = .token kind := hrole
  rw [hrole] at hleads
  cases hleads with
  | token hmatches =>
    rw [Token.Conforms, String.toList_ofList]
    exact ⟨hmatches, rfl⟩

/-- A blank goes on with no token. -/
theorem separates_of_isBlank {c : Char} (hc : isBlank c = true) (rest : List Char) :
    Separates (c :: rest) := by
  intro d hd
  obtain rfl : c = d := by simpa using hd
  simp only [isBlank, Bool.or_eq_true, beq_iff_eq] at hc
  rcases hc with ((rfl | rfl) | rfl) | rfl <;> decide

end Piece

theorem IsSeparator.separates {text : List Char} (h : IsSeparator text) (rest : List Char) :
    Piece.Separates (text ++ rest) := by
  obtain ⟨-, c, more, rfl, hc⟩ := h
  exact Piece.separates_of_isBlank hc (more ++ rest)

/-! ### Scanning layout and lexemes -/

namespace Scans
open Piece
variable {line : UInt32} {rest : List Char}

theorem nil : Scans line [] rest [] := by
  refine ⟨[], ?_, rfl, rfl⟩
  rw [newlines_eq_zero List.not_mem_nil, UInt32.add_zero]
  rfl

theorem gap {c : Char} {cs : List Char} (h : extent c (cs ++ rest) = (.gap, cs.length)) :
    Scans line (c :: cs) rest [] :=
  ⟨[_], pieces_of_extent h, rfl, rfl⟩

theorem layout {text : List Char} (h : IsLayout text) (line : UInt32) (rest : List Char) :
    Scans line text rest [] := by
  induction h generalizing line with
  | nil => exact nil
  | @blank c text hc _ ih =>
    have hblank : Scans line [c] (text ++ rest) [] := gap (extent_blank hc)
    exact hblank.append (ih _)
  | @comment body text hbody _ ih =>
    have hslash : '\n' ∉ '/' :: body := List.not_mem_cons_of_ne_of_not_mem (by decide) hbody
    have hextent : extent '/' (('/' :: body) ++ ('\n' :: text ++ rest)) = (.gap, ('/' :: body).length) := by
      rw [extent_comment rfl, takeWhile_ne hslash (by simp)]
    have hcomment : Scans line ('/' :: '/' :: body) ('\n' :: text ++ rest) [] := gap hextent
    have hbreak (line : UInt32) : Scans line ['\n'] (text ++ rest) [] := gap rfl
    exact hcomment.append ((hbreak _).append (ih _))

/-- Before a blank or the end, a lexeme is scanned as the token that it was. -/
theorem lexeme {t : Token} (h : t.Conforms) (hr : Separates rest) (line : UInt32) :
    ∃ t', Scans line t.lexeme.toList rest [t'] ∧ t'.eraseLine = t.eraseLine := by
  obtain ⟨hmatches, hliteral⟩ := h
  obtain ⟨c, cs, htext, hextent⟩ := extent_of_matches hmatches
  have hwhole : extent c (cs ++ rest) = (.token t.kind, cs.length) := by
    rw [extent_append hr, hextent] <;> simp [hextent]
  refine ⟨{ t with line := line + newlines (c :: cs) }, ?_, rfl⟩
  have hscans : Scans line (c :: cs) rest _ := token hwhole
  rw [← htext, String.ofList_toList, ← hliteral] at hscans
  rw [← htext]
  exact hscans

theorem setApart {tokens : List Token} {text : List Char} (h : SetApart (tokens.map Token.lexeme) text)
    (hconforms : ∀ t ∈ tokens, t.Conforms) (line : UInt32) :
    ∃ tokens', Scans line text [] tokens' ∧ tokens'.map Token.eraseLine = tokens.map Token.eraseLine := by
  induction tokens generalizing text line with
  | nil =>
    cases h
    exact ⟨[], nil, rfl⟩
  | cons t tokens ih =>
    obtain ⟨ht, htokens⟩ := List.forall_mem_cons.1 hconforms
    generalize hlexemes : (t :: tokens).map Token.lexeme = lexemes at h
    cases h with
    | nil => cases hlexemes
    | last =>
      obtain ⟨rfl, hnil⟩ := List.cons.inj hlexemes
      obtain rfl := List.map_eq_nil_iff.1 hnil
      obtain ⟨t', hscans, he⟩ := @lexeme [] t ht (fun c hc => by cases hc) line
      exact ⟨[t'], hscans, congrArg (fun t => [t]) he⟩
    | @cons _ _ separator rest hseparator h =>
      obtain ⟨rfl, rfl⟩ := List.cons.inj hlexemes
      have hr : Separates ((separator ++ rest) ++ []) := by
        rw [List.append_nil]
        exact hseparator.separates rest
      obtain ⟨t', hscans, he⟩ := lexeme ht hr line
      obtain ⟨tokens', hscans', he'⟩ := ih h htokens _
      refine ⟨t' :: tokens', hscans.append ((layout hseparator.1 _ _).append hscans'), ?_⟩
      rw [List.map_cons, List.map_cons, he, he']

end Scans

namespace Scanned

theorem filter_tokens (source : String) :
    ((ofSource source).tokens.filter fun t => t.kind ≠ .eof) =
      (Piece.pieces 1 source.toList).filterMap Piece.token? := by
  have hkept : ∀ t ∈ (Piece.pieces 1 source.toList).filterMap Piece.token?, decide (t.kind ≠ .eof) = true := by
    intro t ht
    obtain ⟨p, hp, hpt⟩ := List.mem_filterMap.1 ht
    exact decide_eq_true (Piece.kind_of_mem_pieces hp hpt)
  rw [ofSource, ofChars, List.filter_append, List.filter_eq_self.2 hkept]
  exact List.append_nil _

/-- If the lexemes of a source are set apart by any layout, and any stands before and behind them, they are
scanned without errors and as the same tokens but for their lines. -/
theorem tokens_of_setApart {source relaid : String} {lead text : List Char} (hlead : IsLayout lead)
    (htext : SetApart (((ofSource source).tokens.filter fun t => t.kind ≠ .eof).map Token.lexeme) text)
    (hrelaid : relaid.toList = lead ++ text) :
    (ofSource relaid).errors = [] ∧
      (ofSource relaid).tokens.map Token.eraseLine = (ofSource source).tokens.map Token.eraseLine := by
  rw [filter_tokens] at htext
  have hconforms : ∀ t ∈ (Piece.pieces 1 source.toList).filterMap Piece.token?, t.Conforms := by
    intro t ht
    obtain ⟨p, hp, hpt⟩ := List.mem_filterMap.1 ht
    exact Piece.conforms_of_mem_pieces hp hpt
  obtain ⟨tokens, hscans, htokens⟩ := Scans.setApart htext hconforms (1 + Piece.newlines lead)
  have hlayout : Scans 1 lead (text ++ []) [] := .layout hlead 1 _
  obtain ⟨pieces, hpieces, hscanned, herrors⟩ := hlayout.append hscans
  rw [List.append_nil, Piece.pieces_nil, List.append_nil] at hpieces
  rw [ofSource, ofChars, hrelaid, hpieces]
  refine ⟨herrors, ?_⟩
  rw [hscanned, List.nil_append, List.map_append, htokens, ofSource, ofChars, List.map_append]
  rfl

/-- The tokens of `1 .5!="//⏎"@` on lines of their own, with comments between them; the stray character is
no token. -/
theorem tokens_of_setApart_comments :
    let source := "1 .5!=\"//\n\"@"
    let lexemes := ["1", ".", "5", "!=", "\"//\n\""]
    let relaid := "//=\n1\t.\r5 //.5\n!=\n \"//\n\""
    ((ofSource source).tokens.filter fun t => t.kind ≠ .eof).map Token.lexeme = lexemes ∧
      (ofSource relaid).errors = [] ∧
      (ofSource relaid).tokens.map Token.eraseLine = (ofSource source).tokens.map Token.eraseLine := by
  intro source lexemes relaid
  have hlexemes : ((ofSource source).tokens.filter fun t => t.kind ≠ .eof).map Token.lexeme = lexemes := by
    decide +kernel
  have hblank {c : Char} (hc : Piece.isBlank c = true) : IsSeparator [c] :=
    ⟨.blank hc .nil, c, [], rfl, hc⟩
  have hcomment : IsSeparator [' ', '/', '/', '.', '5', '\n'] :=
    ⟨.blank rfl (@IsLayout.comment ['.', '5'] [] (by decide) .nil), ' ', _, rfl, rfl⟩
  have hbreak : IsSeparator ['\n', ' '] := ⟨.blank rfl (.blank rfl .nil), '\n', _, rfl, rfl⟩
  have htext : SetApart lexemes _ :=
    .cons "1" (hblank (c := '\t') rfl) (.cons "." (hblank (c := '\r') rfl)
      (.cons "5" hcomment (.cons "!=" hbreak (.last "\"//\n\""))))
  have hlead : IsLayout ['/', '/', '=', '\n'] := @IsLayout.comment ['='] [] (by decide) .nil
  rw [← hlexemes] at htext
  exact ⟨hlexemes, tokens_of_setApart hlead htext (by decide +kernel)⟩

end Scanned
end BlockScript
