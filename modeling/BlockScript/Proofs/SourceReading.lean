import BlockScript.Reading
import BlockScript.Proofs.Acceptance
import BlockScript.Proofs.PieceBoundaries

/-!
# Accepted sources

A source is accepted just if its pieces hold no error and their tokens have a derivation that keeps to
names.
-/
namespace BlockScript
open Grammar

theorem Token.Kind.ofWord_mem (word : String) : ofWord word ∈ identifier :: keywords.map Prod.snd := by
  rw [ofWord]
  cases hl : keywords.lookup word with
  | none => exact List.mem_cons_self
  | some kind =>
    obtain ⟨before, after, hmem, -⟩ := List.lookup_eq_some_iff.1 hl
    have hentry : (word, kind) ∈ keywords := by
      rw [hmem]
      simp
    exact List.mem_cons_of_mem _ (List.mem_map.2 ⟨_, hentry, rfl⟩)

namespace Piece

theorem extent_ne_eof (c : Char) (cs : List Char) : (extent c cs).1 ≠ .token .eof := by
  have hsymbols : ∀ kind ∈ symbolKinds, kind ≠ .eof := by decide
  have hwords : ∀ kind ∈ Token.Kind.identifier :: Token.Kind.keywords.map Prod.snd, kind ≠ .eof := by
    decide
  rcases extent_cases c cs with
    ⟨n, -, he⟩ | ⟨-, -, he⟩ | he | he | ⟨-, he⟩ | he | ⟨kind, n, hkind, -, he⟩ <;> rw [he]
  case inr.inr.inr.inr.inl => simpa using hwords _ (Token.Kind.ofWord_mem _)
  case inr.inr.inr.inr.inr.inr => simpa using hsymbols kind hkind
  all_goals simp

theorem kind_of_mem_pieces {line : UInt32} {cs : List Char} {p : Piece} {t : Token}
    (hp : p ∈ pieces line cs) (ht : p.token? = some t) : t.kind ≠ .eof := by
  obtain ⟨before, c, rest, -, rfl⟩ := exists_first_of_mem_pieces hp
  have hne := extent_ne_eof c rest
  rw [token?] at ht
  split at ht
  · next kind hrole =>
    cases ht
    rintro rfl
    exact hne hrole
  · cases ht

end Piece

theorem Scanned.input_tokens (cs : List Char) :
    Parsed.input (ofChars cs).tokens = (Piece.pieces 1 cs).filterMap Piece.token? := by
  rw [Parsed.input, ofChars, List.takeWhile_append_of_pos]
  · simp [Token.atEnd]
  · intro t ht
    obtain ⟨p, hp, hpt⟩ := List.mem_filterMap.1 ht
    simpa using Piece.kind_of_mem_pieces hp hpt

/-- Whether the text, from the given line on, has no errors and a derivation of the statements. -/
def IsProgram (line : UInt32) (cs : List Char) (statements : List Stmt) : Prop :=
  (Piece.pieces line cs).filterMap Piece.error? = [] ∧
    ∃ ds, Declaration.tokensOfAll ds = (Piece.pieces line cs).filterMap Piece.token? ∧
      Declaration.GuardedAll ds ∧ Declaration.AllAssignNames ds ∧
      Declaration.statementsOfAll ds = statements

/-- The accepted sources and their statements. -/
theorem readProgram_eq_ok_iff (source : String) (statements : List Stmt) :
    readProgram source = .ok statements ↔ IsProgram 1 source.toList statements := by
  rw [IsProgram, ← Scanned.input_tokens]
  constructor
  · intro h
    rw [readProgram, Reading.program] at h
    split at h
    · next he =>
      simp only [Reading.errors, List.isEmpty_iff, List.append_eq_nil_iff] at he
      have hparsed : (Reading.ofSource source).parsed.program = .ok statements := by
        rw [Parsed.program, if_pos (List.isEmpty_iff.2 he.2)]
        exact h
      exact ⟨he.1, Parsed.derivation_of_program hparsed⟩
    · cases h
  · rintro ⟨he, ds, ht, hg, ha, rfl⟩
    obtain ⟨hf, hs⟩ := Parsed.program_eq_ok (Parsed.program_of_derivation ht hg ha)
    have herrors : (Reading.ofSource source).errors.isEmpty := by
      rw [List.isEmpty_iff, Reading.errors, List.append_eq_nil_iff]
      exact ⟨he, List.map_eq_nil_iff.2 hf⟩
    rw [readProgram, Reading.program, if_pos herrors]
    exact congrArg Except.ok hs

/-! ### Texts inside a source -/

/-- Whether the text, when the rest follows it, is cut into whole pieces, which are the tokens and gaps. -/
def Scans (line : UInt32) (text rest : List Char) (tokens : List Token) : Prop :=
  ∃ ps, Piece.pieces line (text ++ rest) = ps ++ Piece.pieces (line + Piece.newlines text) rest ∧
    ps.filterMap Piece.token? = tokens ∧ ps.filterMap Piece.error? = []

namespace Scans
variable {line : UInt32} {rest : List Char}

theorem append {text text' : List Char} {tokens tokens' : List Token}
    (h : Scans line text (text' ++ rest) tokens)
    (h' : Scans (line + Piece.newlines text) text' rest tokens') :
    Scans line (text ++ text') rest (tokens ++ tokens') := by
  obtain ⟨ps, hps, ht, he⟩ := h
  obtain ⟨ps', hps', ht', he'⟩ := h'
  refine ⟨ps ++ ps', ?_, by simp [ht, ht'], by simp [he, he']⟩
  rw [List.append_assoc, hps, hps', Piece.newlines_append, UInt32.add_assoc, List.append_assoc]

theorem token {c : Char} {cs : List Char} {kind : Token.Kind}
    (h : Piece.extent c (cs ++ rest) = (.token kind, cs.length)) :
    Scans line (c :: cs) rest
      [⟨kind, String.ofList (c :: cs), kind.literal? (c :: cs), line + Piece.newlines (c :: cs)⟩] :=
  ⟨[_], Piece.pieces_of_extent h, rfl, rfl⟩

theorem blank : Scans line [' '] rest [] :=
  ⟨[_], @Piece.pieces_of_extent line ' ' [] rest .gap rfl, rfl, rfl⟩

end Scans

end BlockScript
