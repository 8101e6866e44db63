import BlockScript.Proofs.Lexemes

/-!
# The shape of parsed expressions

The expressions of an accepted source are those whose operands bind as tightly as the grammar asks and
whose names and literals can be written down. Every part of such an expression is one, too.
-/
namespace BlockScript
open Grammar

namespace Expr

/-- How tightly the outermost operation of an expression binds. -/
def strength : Expr → Nat
  | .assign _ _ => 0
  | .binary _ op _ _ => op.level + 1
  | .unary _ _ _ => 5
  | .literal _ | .grouping _ | .var _ => 6

/-- Whether the expression could have been read from a source text. -/
def WellShaped : Expr → Prop
  | .literal v => v.HasLiteral
  | .grouping e => e.WellShaped
  | .unary _ _ e => e.strength = 6 ∧ e.WellShaped
  | .binary l op _ r =>
    op.level + 1 ≤ l.strength ∧ op.level + 1 < r.strength ∧ l.WellShaped ∧ r.WellShaped
  | .var name => name.IsName
  | .assign name e => name.IsName ∧ e.WellShaped

/-- The expression with all line numbers set to zero. -/
def eraseLines : Expr → Expr
  | .literal v => .literal v
  | .grouping e => .grouping e.eraseLines
  | .unary op _ e => .unary op 0 e.eraseLines
  | .binary l op _ r => .binary l.eraseLines op 0 r.eraseLines
  | .var name => .var { name with line := 0 }
  | .assign name e => .assign { name with line := 0 } e.eraseLines

/-- Whether the whole expression stands on the given line. -/
def OnLine (line : UInt32) : Expr → Prop
  | .literal v => ∀ s, v = .string s → '\n' ∉ s.toList
  | .grouping e => e.OnLine line
  | .unary _ line' e => line' = line ∧ e.OnLine line
  | .binary l _ line' r => line' = line ∧ l.OnLine line ∧ r.OnLine line
  | .var name => name.line = line
  | .assign name e => name.line = line ∧ e.OnLine line

/-- The expression itself and all expressions inside it. -/
def subexpressions : Expr → List Expr
  | .literal v => [.literal v]
  | .grouping e => .grouping e :: e.subexpressions
  | .unary op line e => .unary op line e :: e.subexpressions
  | .binary l op line r => .binary l op line r :: (l.subexpressions ++ r.subexpressions)
  | .var name => [.var name]
  | .assign name e => .assign name e :: e.subexpressions

variable {e part : Expr} {line : UInt32}

/-- The operands of an expression. -/
def operands : Expr → List Expr
  | .literal _ | .var _ => []
  | .grouping e | .unary _ _ e | .assign _ e => [e]
  | .binary l _ _ r => [l, r]

/-- What passes to the operands passes to all expressions inside. -/
theorem of_mem_subexpressions {P : Expr → Prop} (hP : ∀ e, P e → ∀ e' ∈ e.operands, P e') (h : P e)
    (hp : part ∈ e.subexpressions) : P part := by
  have hpass := hP e h
  induction e with
  | literal v | var name =>
    obtain rfl := List.mem_singleton.1 hp
    exact h
  | grouping e ih | unary op line e ih | assign name e ih =>
    have he : P e := hpass e List.mem_cons_self
    rcases List.mem_cons.1 hp with rfl | hp
    · exact h
    · exact ih he hp (hP e he)
  | binary l op line r ihl ihr =>
    have hl : P l := hpass l List.mem_cons_self
    have hr : P r := hpass r (List.mem_cons_of_mem l List.mem_cons_self)
    rcases List.mem_cons.1 hp with rfl | hp
    · exact h
    rcases List.mem_append.1 hp with hp | hp
    · exact ihl hl hp (hP l hl)
    · exact ihr hr hp (hP r hr)

theorem WellShaped.of_mem_subexpressions (h : e.WellShaped) (hp : part ∈ e.subexpressions) :
    part.WellShaped := by
  refine Expr.of_mem_subexpressions (fun e h e' he' => ?_) h hp
  cases e <;> simp_all [WellShaped, operands]
  rcases he' with rfl | rfl
  · exact h.2.2.1
  · exact h.2.2.2

theorem OnLine.of_mem_subexpressions (h : e.OnLine line) (hp : part ∈ e.subexpressions) :
    part.OnLine line := by
  refine Expr.of_mem_subexpressions (fun e h e' he' => ?_) h hp
  cases e <;> simp_all [OnLine, operands]
  rcases he' with rfl | rfl
  · exact h.2.1
  · exact h.2.2

end Expr

/-- Whether the token ends where it begins, on the given line. -/
def Token.OnLine (line : UInt32) (t : Token) : Prop :=
  t.line = line ∧ ∀ s, t.literal = some (.string s) → '\n' ∉ s.toList

namespace Grammar

/-- Whether the expression binds as tightly as the category asks. -/
def Category.Admits : Category → Expr → Prop
  | .expression, _ => True
  | .chain height, e => 5 ≤ e.strength + height
  | .primary, e => e.strength = 6

mutual

theorem Phrase.wellShaped : {c : Category} → (p : Phrase c) → p.AssignsNames →
    (∀ t ∈ p.tokens, t.IsLexeme) → p.tree.WellShaped ∧ c.Admits p.tree
  | _, .constant t v h, _, ht => ⟨(ht t List.mem_cons_self).hasLiteral v h, rfl⟩
  | _, .name t, _, ht => ⟨(ht t.1 List.mem_cons_self).isName t.2, rfl⟩
  | _, .paren opening inner closing, ha, ht => by
    refine ⟨(inner.wellShaped ha fun t hmem => ht t ?_).1, rfl⟩
    rw [Phrase.tokens]
    exact List.mem_cons_of_mem _ (List.mem_append_left _ hmem)
  | _, .plain operand, ha, ht => by
    obtain ⟨hs, hstrength⟩ := operand.wellShaped ha ht
    refine ⟨hs, ?_⟩
    rw [Category.Admits, Phrase.tree, hstrength]
    decide
  | _, .signed t op h operand, ha, ht => by
    obtain ⟨hs, hstrength⟩ := operand.wellShaped ha fun t' hmem => ht t' (List.mem_cons_of_mem _ hmem)
    exact ⟨⟨hstrength, hs⟩, Nat.le_refl 5⟩
  | _, .chain first links, ha, ht => by
    obtain ⟨hs, hstrength⟩ := first.wellShaped ha.1 fun t hmem => ht t (List.mem_append_left _ hmem)
    exact links.wellShaped ha.2 (fun t hmem => ht t (List.mem_append_right _ hmem)) first.tree hs
      (Nat.le_succ_of_le hstrength)
  | _, .value e, ha, ht => ⟨(e.wellShaped ha ht).1, trivial⟩
  | _, .assign target equals value, ⟨⟨name, hname⟩, ha⟩, ht => by
    obtain ⟨htree, -⟩ := target.tree_of_tokens_eq_name hname
    refine ⟨?_, trivial⟩
    rw [Phrase.tree, htree]
    rw [Phrase.tokens, hname] at ht
    refine ⟨(ht name.1 List.mem_cons_self).isName name.2, (value.wellShaped ha fun t hmem => ht t ?_).1⟩
    exact List.mem_append_right _ (List.mem_cons_of_mem _ hmem)

theorem Links.wellShaped : {height : Nat} → (links : Links height) → links.AssignNames →
    (∀ t ∈ links.tokens, t.IsLexeme) → (left : Expr) → left.WellShaped →
    5 ≤ left.strength + (height + 1) →
    (links.tree left).WellShaped ∧ 5 ≤ (links.tree left).strength + (height + 1)
  | _, .nil, _, _, left, hs, hle => ⟨hs, hle⟩
  | height, .cons t op h hl right rest, ha, ht, left, hs, hle => by
    rw [Links.tokens] at ht
    obtain ⟨hs', hle'⟩ := right.wellShaped ha.1 fun t hmem =>
      ht t (List.mem_cons_of_mem _ (List.mem_append_left _ hmem))
    have hle' : 5 ≤ right.tree.strength + height := hle'
    refine rest.wellShaped ha.2 (fun t hmem => ht t ?_) (.binary left op t.line right.tree) ?_ ?_
    · exact List.mem_cons_of_mem _ (List.mem_append_right _ hmem)
    · exact ⟨by omega, by omega, hs, hs'⟩
    · rw [Expr.strength]
      omega

end

theorem constant?_onLine {t : Token} {v : Value} {line : UInt32} (ht : t.OnLine line)
    (h : t.constant? = some v) : (Expr.literal v).OnLine line := by
  rintro s rfl
  refine ht.2 s ?_
  rw [Token.constant?.eq_def] at h
  split at h
  · cases h
  · cases h
  · cases h
  · exact h
  · exact h
  · cases h

mutual

theorem Phrase.onLine {line : UInt32} : {c : Category} → (p : Phrase c) →
    (∀ t ∈ p.tokens, t.OnLine line) → p.tree.OnLine line
  | _, .constant t v h, ht => constant?_onLine (ht t List.mem_cons_self) h
  | _, .name t, ht => (ht t.1 List.mem_cons_self).1
  | _, .paren opening inner closing, ht => by
    refine inner.onLine fun t hmem => ht t ?_
    rw [Phrase.tokens]
    exact List.mem_cons_of_mem _ (List.mem_append_left _ hmem)
  | _, .plain operand, ht => operand.onLine ht
  | _, .signed t op h operand, ht =>
    ⟨(ht t List.mem_cons_self).1, operand.onLine fun t' hmem => ht t' (List.mem_cons_of_mem _ hmem)⟩
  | _, .chain first links, ht =>
    links.onLine (fun t hmem => ht t (List.mem_append_right _ hmem)) first.tree
      (first.onLine fun t hmem => ht t (List.mem_append_left _ hmem))
  | _, .value e, ht => e.onLine ht
  | _, .assign target equals value, ht => by
    have htarget := target.onLine fun t hmem => ht t (List.mem_append_left _ hmem)
    have hvalue := value.onLine fun t hmem =>
      ht t (List.mem_append_right _ (List.mem_cons_of_mem _ hmem))
    rw [Phrase.tree, assignment.eq_def]
    split
    · next name hname =>
      rw [hname] at htarget
      exact ⟨htarget, hvalue⟩
    · exact htarget

theorem Links.onLine {line : UInt32} : {height : Nat} → (links : Links height) →
    (∀ t ∈ links.tokens, t.OnLine line) → (left : Expr) → left.OnLine line →
    (links.tree left).OnLine line
  | _, .nil, _, left, hl => hl
  | _, .cons t op h hl right rest, ht, left, hleft => by
    rw [Links.tokens] at ht
    have hright := right.onLine fun t hmem =>
      ht t (List.mem_cons_of_mem _ (List.mem_append_left _ hmem))
    refine rest.onLine (fun t hmem => ht t ?_) (.binary left op t.line right.tree) ?_
    · exact List.mem_cons_of_mem _ (List.mem_append_right _ hmem)
    · exact ⟨(ht t List.mem_cons_self).1, hleft, hright⟩

end

namespace Declaration

/-- The expression was read from a phrase of the tokens. -/
def Reads (tokens : List Token) (e : Expr) : Prop :=
  ∃ p : Phrase .expression, p.tree = e ∧ p.AssignsNames ∧ ∀ t ∈ p.tokens, t ∈ tokens

mutual

theorem reads_of_mem_expressions {e : Expr} : (d : Declaration) → d.AssignsNames →
    e ∈ d.statement.expressions → Reads d.tokens e
  | .declare _ _ _, _, he => by cases he
  | .define keyword name equals value semicolon, ha, he => by
    obtain rfl := List.mem_singleton.1 he
    exact ⟨value, rfl, ha, fun t ht => by simp [tokens, ht]⟩
  | .print keyword value semicolon, ha, he => by
    obtain rfl := List.mem_singleton.1 he
    exact ⟨value, rfl, ha, fun t ht => by simp [tokens, ht]⟩
  | .effect value semicolon, ha, he => by
    obtain rfl := List.mem_singleton.1 he
    exact ⟨value, rfl, ha, fun t ht => by simp [tokens, ht]⟩
  | .block opening body closing, ha, he => by
    obtain ⟨p, hp, hnames, hmem⟩ := reads_of_mem_expressionsOfAll body ha he
    exact ⟨p, hp, hnames, fun t ht => by simp [tokens, hmem t ht]⟩

theorem reads_of_mem_expressionsOfAll {e : Expr} : (ds : List Declaration) → AllAssignNames ds →
    e ∈ Stmt.expressionsOfAll (statementsOfAll ds) → Reads (tokensOfAll ds) e
  | [], _, he => by cases he
  | d :: rest, ha, he => by
    rw [statementsOfAll, Stmt.expressionsOfAll, List.mem_append] at he
    rw [tokensOfAll]
    rcases he with he | he
    · obtain ⟨p, hp, hnames, hmem⟩ := reads_of_mem_expressions d ha.1 he
      exact ⟨p, hp, hnames, fun t ht => List.mem_append_left _ (hmem t ht)⟩
    · obtain ⟨p, hp, hnames, hmem⟩ := reads_of_mem_expressionsOfAll rest ha.2 he
      exact ⟨p, hp, hnames, fun t ht => List.mem_append_right _ (hmem t ht)⟩

end

end Declaration
end Grammar

namespace Piece

end Piece

end BlockScript
