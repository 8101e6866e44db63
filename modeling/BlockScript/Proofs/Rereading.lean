import BlockScript.RoundTrip
import BlockScript.Proofs.ExprShape

/-!
# Source texts are read back

The source text of a well-shaped expression is scanned as the tokens of a derivation, whose tree is that
expression again. Parentheses come from groupings alone, and the derivation has the category that the
binding strength of the expression asks for.
-/
namespace BlockScript
open Grammar

/-- What follows an expression in a source text: a blank, a closing parenthesis or a semicolon. -/
def Closes (rest : List Char) : Prop :=
  ∃ c more, rest = c :: more ∧ (c = ' ' ∨ c = ')' ∨ c = ';')

theorem Closes.separates {rest : List Char} (h : Closes rest) : Piece.Separates rest := by
  obtain ⟨c, more, rfl, hc⟩ := h
  intro d hd
  obtain rfl : c = d := by simpa using hd
  rcases hc with rfl | rfl | rfl <;> decide

namespace Expr

/-- The category of the derivation of an expression. -/
def category : Expr → Category
  | .assign _ _ => .expression
  | .binary _ op _ _ => .chain (3 - op.level + 1)
  | .unary _ _ _ => .chain 0
  | .literal _ | .grouping _ | .var _ => .primary

theorem category_of_strength {e : Expr} (h : e.strength = 6) : e.category = .primary := by
  cases e with
  | literal | grouping | var => rfl
  | binary l op line r =>
    have hle := op.level_le
    rw [strength] at h
    omega
  | unary | assign => simp [strength] at h

/-- The source text of the expression, from the given line on, is scanned as the phrase, and the phrase
derives the expression. -/
structure Rereads (e : Expr) (line : UInt32) (rest : List Char) {c : Category} (p : Phrase c) : Prop where
  scans : Scans line e.source.toList rest p.tokens
  assignsNames : p.AssignsNames
  eraseLines : p.tree.eraseLines = e.eraseLines
  onLine : e.OnLine line → p.tree = e

section Lifting
variable {e : Expr} {line : UInt32} {rest : List Char}

theorem Rereads.congr {c c' : Category} {p : Phrase c} {q : Phrase c'} (h : Rereads e line rest p)
    (ht : q.tokens = p.tokens) (he : q.tree = p.tree) (ha : p.AssignsNames → q.AssignsNames) :
    Rereads e line rest q where
  scans := ht ▸ h.scans
  assignsNames := ha h.assignsNames
  eraseLines := he ▸ h.eraseLines
  onLine := he ▸ h.onLine

theorem Rereads.chain {height height' : Nat} {p : Phrase (.chain height)} (h : Rereads e line rest p)
    (hle : height ≤ height') : ∃ q : Phrase (.chain height'), Rereads e line rest q := by
  obtain ⟨q, ht, he, ha⟩ := exists_chain hle p
  exact ⟨q, h.congr ht he ha⟩

theorem exists_chain_rereads (h : ∃ p : Phrase e.category, Rereads e line rest p) {height : Nat}
    (hheight : height ≤ 4) (hle : 5 ≤ e.strength + height) :
    ∃ p : Phrase (.chain height), Rereads e line rest p := by
  obtain ⟨p, hp⟩ := h
  have hprimary : ∀ q : Phrase .primary, Rereads e line rest q →
      ∃ p : Phrase (.chain height), Rereads e line rest p := fun q hq =>
    Rereads.chain (p := .plain q) (hq.congr rfl rfl id) (Nat.zero_le _)
  cases e with
  | assign name value =>
    rw [strength] at hle
    omega
  | binary l op line' r =>
    have hlevel := op.level_le
    rw [strength] at hle
    exact Rereads.chain (p := p) hp (by omega)
  | unary op line' operand => exact Rereads.chain (p := p) hp (Nat.zero_le _)
  | literal v => exact hprimary p hp
  | grouping inner => exact hprimary p hp
  | var name => exact hprimary p hp

theorem exists_expression_rereads (h : ∃ p : Phrase e.category, Rereads e line rest p) :
    ∃ p : Phrase .expression, Rereads e line rest p := by
  by_cases he : 1 ≤ e.strength
  · obtain ⟨p, hp⟩ := exists_chain_rereads h (Nat.le_refl 4) (by omega)
    exact ⟨.value p, hp.congr rfl rfl id⟩
  · cases e with
    | assign name value => exact h
    | binary | unary | literal | grouping | var => simp [strength] at he

end Lifting

/-! ### Lines -/

theorem newline_notMem_literalSource {v : Value} (h : v.HasLiteral)
    (hl : ∀ s, v = .string s → '\n' ∉ s.toList) : '\n' ∉ (literalSource v).toList := by
  cases v with
  | nil => decide
  | bool b => cases b <;> decide
  | string s =>
    have hs := hl s rfl
    simp [literalSource, Value.quoted, hs]
  | number x =>
    obtain ⟨whole, fraction, htext, -, hw, hf, -⟩ := Scans.exists_numeral h
    rw [htext]
    intro hmem
    have hdigit : '\n'.isDigit = true := by
      cases fraction with
      | nil => exact hw _ hmem
      | cons d fraction =>
        rcases List.mem_append.1 hmem with hmem | hmem
        · exact hw _ hmem
        · exact hf _ ((List.mem_cons.1 hmem).resolve_left (by decide))
    exact absurd hdigit (by decide)

theorem newline_notMem_name {t : Token} (h : t.IsName) : '\n' ∉ t.lexeme.toList := by
  obtain ⟨c, cs, hlexeme, hc, hcs⟩ := h.letters
  rw [hlexeme]
  intro hmem
  rcases List.mem_cons.1 hmem with rfl | hmem
  · exact absurd hc (by decide)
  · exact absurd (hcs _ hmem) (by decide)

theorem newline_notMem_source {e : Expr} {line : UInt32} (h : e.WellShaped) (hl : e.OnLine line) :
    '\n' ∉ e.source.toList := by
  induction e with
  | literal v => exact newline_notMem_literalSource h hl
  | var name => exact newline_notMem_name h
  | grouping e ih => simp [source, ih h hl]
  | unary op line' e ih =>
    have hop : '\n' ∉ op.symbol.toList := by cases op <;> decide
    simp [source, hop, ih h.2 hl.2]
  | binary l op line' r ihl ihr =>
    have hop : '\n' ∉ op.symbol.toList := by cases op <;> decide
    simp [source, hop, ihl h.2.2.1 hl.2.1, ihr h.2.2.2 hl.2.2]
  | assign name e ih => simp [source, newline_notMem_name h.1, ih h.2 hl.2]

/-! ### Texts -/

/-- A primary expression does not begin with an equals sign. -/
theorem head?_source_ne_equal {e : Expr} (h : e.WellShaped) (hs : e.strength = 6) (rest : List Char) :
    (e.source.toList ++ rest).head? ≠ some '=' := by
  cases e with
  | literal v =>
    cases v with
    | nil => simp [source, literalSource, Value.quoted, Value.text]
    | bool b => cases b <;> simp [source, literalSource, Value.quoted, Value.text]
    | string s => simp [source, literalSource, Value.quoted]
    | number x =>
      obtain ⟨whole, fraction, htext, hne, hw, -, -⟩ := Scans.exists_numeral h
      obtain ⟨c, whole, rfl⟩ := List.exists_cons_of_ne_nil hne
      have hc : c ≠ '=' := by
        rintro rfl
        exact absurd (hw '=' List.mem_cons_self) (by decide)
      cases fraction <;> simp [source, htext, DecimalText.numeral, hc]
  | grouping e => simp [source]
  | var name =>
    obtain ⟨c, cs, hlexeme, hc, -⟩ := Token.IsName.letters h
    have hne : c ≠ '=' := by
      rintro rfl
      exact absurd hc (by decide)
    simp [source, hlexeme, hne]
  | binary l op line r =>
    have hle := op.level_le
    rw [strength] at hs
    omega
  | unary | assign => simp [strength] at hs

section Operations
variable {line line' : UInt32} {rest : List Char}

theorem Rereads.grouping {e : Expr} {p : Phrase .expression} (hp : Rereads e line (')' :: rest) p) :
    ∃ q : Phrase .primary, Rereads (.grouping e) line rest q := by
  obtain ⟨opening, hopening⟩ := @Scans.leftParen line (e.source.toList ++ [')'] ++ rest)
  obtain ⟨closing, hclosing⟩ := @Scans.rightParen (line + Piece.newlines e.source.toList) rest
  have hsource : (Expr.grouping e).source.toList = ['('] ++ (e.source.toList ++ [')']) := by
    simp [source]
  refine ⟨.paren opening p closing, ?_, hp.assignsNames, congrArg Expr.grouping hp.eraseLines, ?_⟩
  · rw [hsource]
    exact .append_of_line (by decide) hopening (hp.scans.append hclosing)
  · exact fun hl => congrArg Expr.grouping (hp.onLine hl)

theorem Rereads.unary {op : UnaryOp} {e : Expr} {p : Phrase .primary}
    (hhead : (e.source.toList ++ rest).head? ≠ some '=') (hp : Rereads e line rest p) :
    ∃ q : Phrase (.chain 0), Rereads (.unary op line' e) line rest q := by
  have hop : '\n' ∉ op.symbol.toList := by cases op <;> decide
  obtain ⟨t, ht, hkind, hline⟩ := @Scans.unaryOp line _ op hhead
  refine ⟨.signed t op hkind p, ?_, hp.assignsNames, congrArg (Expr.unary op 0) hp.eraseLines, ?_⟩
  · rw [source, String.toList_append]
    exact .append_of_line hop ht hp.scans
  · intro hl
    rw [Phrase.tree, hline, hp.onLine hl.2, hl.1]

theorem Rereads.binary {l r : Expr} {op : BinaryOp} {p : Phrase (.chain (3 - op.level + 1))}
    {q : Phrase (.chain (3 - op.level))} (hl : l.WellShaped)
    (hp : Rereads l line (' ' :: (op.symbol.toList ++ ' ' :: (r.source.toList ++ rest))) p)
    (hq : Rereads r (line + Piece.newlines l.source.toList) rest q) :
    ∃ s : Phrase (.chain (3 - op.level + 1)), Rereads (.binary l op line' r) line rest s := by
  have hlevel := op.level_le
  have hop : '\n' ∉ op.symbol.toList := by cases op <;> decide
  obtain ⟨t, ht, hkind, hline⟩ :=
    @Scans.binaryOp (line + Piece.newlines l.source.toList) (r.source.toList ++ rest) op
  obtain ⟨s, hst, hse, hsa⟩ := exists_binary p hkind (by omega) q
  have hsource : (Expr.binary l op line' r).source.toList =
      l.source.toList ++ ([' '] ++ (op.symbol.toList ++ ([' '] ++ r.source.toList))) := by
    simp [source]
  refine ⟨s, ?_, hsa hp.assignsNames hq.assignsNames, ?_, fun hon => ?_⟩
  · have hright := Scans.append_of_line (by decide) .blank hq.scans
    have hoperator := Scans.append_of_line hop (by simpa using ht) hright
    rw [hsource, hst]
    refine .append (by simpa using hp.scans) ?_
    exact .append_of_line (by decide) .blank hoperator
  · rw [hse, Expr.eraseLines, Expr.eraseLines, hp.eraseLines, hq.eraseLines]
  · have hzero := Piece.newlines_eq_zero (newline_notMem_source hl hon.2.1)
    rw [hzero, UInt32.add_zero] at hq hline
    rw [hse, hline, hp.onLine hon.2.1, hq.onLine hon.2.2, hon.1]

theorem Rereads.assign {name : Token} {e : Expr} {p : Phrase .expression} (hname : name.IsName)
    (hp : Rereads e line rest p) : ∃ q : Phrase .expression, Rereads (.assign name e) line rest q := by
  obtain ⟨equals, hequals⟩ := @Scans.equal line (e.source.toList ++ rest)
  obtain ⟨t, htoken⟩ : ∃ t : Terminal .identifier, t.1 = { name with line } :=
    ⟨⟨{ name with line }, hname.kind⟩, rfl⟩
  obtain ⟨target, htarget, htree, -⟩ := exists_chain (Nat.zero_le 4) (.plain (.name t))
  have hassign : (Phrase.assign target equals p).tree = .assign { name with line } p.tree := by
    rw [Phrase.tree, htree, ← htoken]
    rfl
  have hsource : (Expr.assign name e).source.toList =
      name.lexeme.toList ++ ([' '] ++ (['='] ++ ([' '] ++ e.source.toList))) := by
    simp [source]
  refine ⟨.assign target equals p, ?_, ⟨⟨t, htarget⟩, hp.assignsNames⟩, ?_, fun hon => ?_⟩
  · have hvalue := Scans.append_of_line (by decide) .blank hp.scans
    have hequal : Scans line (['='] ++ ([' '] ++ e.source.toList)) rest ([equals.1] ++ ([] ++ p.tokens)) :=
      .append_of_line (by decide) (by simpa using hequals) hvalue
    have hrest : Closes ([' '] ++ (['='] ++ ([' '] ++ e.source.toList)) ++ rest) := ⟨' ', _, rfl, .inl rfl⟩
    have htokens : (Phrase.assign target equals p).tokens =
        [{ name with line }] ++ ([] ++ ([equals.1] ++ ([] ++ p.tokens))) := by
      rw [Phrase.tokens, htarget, ← htoken]
      rfl
    rw [hsource, htokens]
    exact .append_of_line (newline_notMem_name hname) (.name hname hrest.separates)
      (.append_of_line (by decide) .blank hequal)
  · rw [hassign, Expr.eraseLines, Expr.eraseLines, hp.eraseLines]
  · obtain rfl : name.line = line := hon.1
    rw [hassign, hp.onLine hon.2]

end Operations

theorem WellShaped.rereads : (e : Expr) → e.WellShaped → (line : UInt32) → (rest : List Char) →
    Closes rest → ∃ p : Phrase e.category, Rereads e line rest p
  | .literal v, h, line, rest, hr => by
    obtain ⟨t, ht, hv⟩ := Scans.literal h hr.separates
    exact ⟨.constant t v hv, ht, trivial, rfl, fun _ => rfl⟩
  | .var name, h, line, rest, hr => by
    refine ⟨.name ⟨{ name with line }, h.kind⟩, Scans.name h hr.separates, trivial, rfl, fun hl => ?_⟩
    obtain rfl : name.line = line := hl
    rfl
  | .grouping e, h, line, rest, _ => by
    obtain ⟨p, hp⟩ := exists_expression_rereads (rereads e h line (')' :: rest) ⟨')', rest, rfl, by simp⟩)
    exact hp.grouping
  | .unary op line' e, ⟨hs, h⟩, line, rest, hr => by
    obtain ⟨p, hp⟩ : ∃ p : Phrase .primary, Rereads e line rest p := by
      rw [← category_of_strength hs]
      exact rereads e h line rest hr
    exact hp.unary (head?_source_ne_equal h hs rest)
  | .binary l op line' r, ⟨hl, hr', hlshape, hrshape⟩, line, rest, hr => by
    have hlevel := op.level_le
    obtain ⟨p, hp⟩ := exists_chain_rereads (rereads l hlshape line
      (' ' :: (op.symbol.toList ++ ' ' :: (r.source.toList ++ rest))) ⟨' ', _, rfl, .inl rfl⟩)
      (show 3 - op.level + 1 ≤ 4 by omega) (by omega)
    obtain ⟨q, hq⟩ := exists_chain_rereads
      (rereads r hrshape (line + Piece.newlines l.source.toList) rest hr)
      (show 3 - op.level ≤ 4 by omega) (by omega)
    exact hp.binary hlshape hq
  | .assign name e, ⟨hname, h⟩, line, rest, hr => by
    obtain ⟨p, hp⟩ := exists_expression_rereads (rereads e h line rest hr)
    exact hp.assign hname

/-- The source text of a well-shaped expression is a program of one statement, which is that expression
up to line numbers. -/
theorem WellShaped.readsBack {e : Expr} (h : e.WellShaped) :
    ∃ e', readProgram (e.source ++ ";") = .ok [.expr e'] ∧ e'.eraseLines = e.eraseLines ∧
      (e.OnLine 1 → e' = e) := by
  obtain ⟨p, hp⟩ := exists_expression_rereads (rereads e h 1 [';'] ⟨';', [], rfl, by simp⟩)
  obtain ⟨semicolon, hsemicolon⟩ := @Scans.semicolon (1 + Piece.newlines e.source.toList) []
  obtain ⟨ps, hps, htokens, herrors⟩ := hp.scans.append hsemicolon
  rw [Piece.pieces_nil, List.append_nil, List.append_nil] at hps
  refine ⟨p.tree, ?_, hp.eraseLines, hp.onLine⟩
  rw [readProgram_eq_ok_iff, String.toList_append]
  change IsProgram 1 (e.source.toList ++ [';']) _
  refine ⟨hps ▸ herrors, [.effect p semicolon], ?_, ⟨trivial, trivial⟩, ⟨hp.assignsNames, trivial⟩, rfl⟩
  rw [hps, htokens]
  simp [Declaration.tokensOfAll, Declaration.tokens]

end Expr
end BlockScript
