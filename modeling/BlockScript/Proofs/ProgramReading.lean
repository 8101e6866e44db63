import BlockScript.Proofs.PhraseReading

/-!
# Derivations of programs are read

Whole declarations, and lists of them, are read one after the other wherever a declaration may begin.
So the tokens of a program without self-references in initializers give the derived statements, and no
faults beside those of assignments to something other than a name.
-/
namespace BlockScript
open Grammar
namespace ParseState

/-- The state some tokens later, when further statements are complete. -/
def complete (s : ParseState) (count : Nat) (found : List Fault) (statements : List Stmt) :
    ParseState :=
  { s with
    position := s.position + count
    mode := .ready
    body := statements.reverse ++ s.body
    faults := found.reverse ++ s.faults }

section Complete
variable (s : ParseState) (n : Nat) (found : List Fault) (statements : List Stmt)

@[simp] theorem position_complete : (s.complete n found statements).position = s.position + n := rfl

@[simp] theorem mode_complete : (s.complete n found statements).mode = .ready := rfl

@[simp] theorem complete_complete (n' : Nat) (found' : List Fault) (statements' : List Stmt) :
    (s.complete n found statements).complete n' found' statements' =
      s.complete (n + n') (found ++ found') (statements ++ statements') := by
  simp [complete, Nat.add_assoc]

@[simp] theorem complete_advance (count : Nat) (mode : Mode) (found' : List Fault) :
    (s.advance count mode found').complete n found statements =
      s.complete (count + n) (found' ++ found) statements := by
  simp [complete, advance, Nat.add_assoc]

end Complete

section Expressions
variable {goal : Goal} {s : ParseState} {t : Token}

/-- An expression with the semicolon after it completes the statement that it is for. -/
theorem foldl_feed_expression {p : Phrase .expression} (semicolon : Terminal .semicolon)
    (hm : s.mode = .operand goal []) (hg : goal.Allows p.tokens) :
    (p.tokens ++ [semicolon.1]).foldl feed s =
      s.complete (p.tokens.length + 1) (p.faults s.position) [goal.finish p.tree] := by
  obtain ⟨pending, e, early, late, hl, hs, hr⟩ := reads_phrase p hm hg trivial
  have hsettle := hs [] (early.reverse ++ s.faults)
  rw [List.append_nil] at hsettle hr
  rw [List.foldl_append, hr, List.foldl_cons, List.foldl_nil]
  simp only [feed, accept, mode_advance]
  rw [acceptOperator_semicolon semicolon.2 hsettle (by simp)]
  simp only [emit, complete, advance, ← hl, List.reverse_append, List.append_assoc, Nat.add_assoc]
  rfl

theorem begin_of_beginsExpression (h : BeginsExpression t) :
    s.begin t = s.acceptOperand .effect [] t := by
  unfold begin
  cases hk : t.kind <;>
    simp_all [BeginsExpression, BeginsPrimary, Token.constant?, UnaryOp.ofKind?]

/-- Where a declaration may begin, so may an expression. -/
theorem feed_of_beginsExpression (hm : s.mode = .ready) (h : BeginsExpression t) :
    s.feed t = { s with mode := .operand .effect [] }.feed t := by
  simp only [feed, accept, hm, begin_of_beginsExpression h]
  rfl

end Expressions

section Declarations
variable {s : ParseState}

theorem reads_declare {keyword : Terminal .varKw} {name : Terminal .identifier}
    {semicolon : Terminal .semicolon} (hm : s.mode = .ready) :
    [keyword.1, name.1, semicolon.1].foldl feed s = s.complete 3 [] [.declare name.1 none] := by
  simp only [List.foldl_cons, List.foldl_nil, feed, accept, hm, begin, keyword.2, name.2, semicolon.2]
  rfl

theorem reads_define (keyword : Terminal .varKw) (name : Terminal .identifier)
    (equals : Terminal .equal) (hm : s.mode = .ready) :
    [keyword.1, name.1, equals.1].foldl feed s =
      s.advance 3 (.operand (.initializer name.1) []) [] := by
  simp only [List.foldl_cons, List.foldl_nil, feed, accept, hm, begin, keyword.2, name.2, equals.2]
  rfl

theorem reads_print (keyword : Terminal .printKw) (hm : s.mode = .ready) :
    s.feed keyword.1 = s.advance 1 (.operand (.print keyword.1.line) []) [] := by
  simp only [feed, accept, hm, begin, keyword.2]
  rfl

theorem reads_effect {p : Phrase .expression} {semicolon : Terminal .semicolon}
    (hm : s.mode = .ready) :
    (p.tokens ++ [semicolon.1]).foldl feed s =
      s.complete (p.tokens.length + 1) (p.faults s.position) [.expr p.tree] := by
  obtain ⟨t, rest, ht, hb⟩ := p.begins
  have hg : Goal.effect.Allows p.tokens := Goal.allows_of_not_initializer (by simp)
  have h := @foldl_feed_expression _ { s with mode := .operand .effect [] } p semicolon rfl hg
  rw [ht, List.cons_append, List.foldl_cons] at h ⊢
  rw [feed_of_beginsExpression hm hb, h]
  rfl

theorem reads_leftBrace (opening : Terminal .leftBrace) (hm : s.mode = .ready) :
    s.feed opening.1 =
      { s with position := s.position + 1, mode := .ready, body := [], outer := s.body :: s.outer } := by
  simp only [feed, accept, hm, begin, opening.2]

theorem reads_rightBrace (closing : Terminal .rightBrace) {body : List Stmt}
    {outer : List (List Stmt)} (hm : s.mode = .ready) (ho : s.outer = body :: outer) :
    s.feed closing.1 =
      { s with
        position := s.position + 1
        mode := .ready
        body := .block s.body.reverse :: body
        outer } := by
  simp only [feed, accept, hm, begin, closing.2, ho]

end Declarations

mutual

theorem reads_declaration {s : ParseState} : (d : Declaration) → s.mode = .ready → d.Guarded →
    d.tokens.foldl feed s = s.complete d.tokens.length (d.faults s.position) [d.statement]
  | .declare _ _ _, hm, _ => reads_declare hm
  | .define keyword name equals value semicolon, hm, hg => by
    have hd := reads_define keyword name equals hm
    have hv := foldl_feed_expression semicolon
      (mode_advance s 3 (.operand (.initializer name.1) []) []) (Goal.initializer_allows_iff.2 hg)
    simp only [List.foldl_cons, List.foldl_nil] at hd
    simp only [Declaration.tokens, List.foldl_cons, hd, hv, complete_advance, List.length_cons,
      List.length_append, List.length_nil]
    congr 1
    omega
  | .print keyword value semicolon, hm, _ => by
    have hp := reads_print keyword hm
    have hv := foldl_feed_expression (p := value) semicolon
      (mode_advance s 1 (.operand (.print keyword.1.line) []) [])
      (Goal.allows_of_not_initializer (by simp))
    simp only [Declaration.tokens, List.foldl_cons, hp, hv, complete_advance, List.length_cons,
      List.length_append, List.length_nil]
    congr 1
    omega
  | .effect value semicolon, hm, _ => by
    rw [Declaration.tokens, reads_effect hm, List.length_append]
    rfl
  | .block opening body closing, hm, hg => by
    have ho := reads_leftBrace opening hm
    have hb := reads_declarations body
      (s := { s with position := s.position + 1, mode := .ready, body := [], outer := s.body :: s.outer })
      rfl hg
    simp only [Declaration.tokens, List.foldl_cons, List.foldl_append, ho, hb, List.foldl_nil]
    rw [reads_rightBrace closing rfl rfl]
    simp only [complete, Declaration.faults, Declaration.statement, List.length_cons,
      List.length_append, List.length_nil, List.append_nil, List.reverse_reverse]
    congr 1
    omega

theorem reads_declarations {s : ParseState} : (ds : List Declaration) → s.mode = .ready →
    Declaration.GuardedAll ds →
    (Declaration.tokensOfAll ds).foldl feed s =
      s.complete (Declaration.tokensOfAll ds).length (Declaration.faultsOfAll s.position ds)
        (Declaration.statementsOfAll ds)
  | [], hm, _ => by
    simp only [Declaration.tokensOfAll, List.foldl_nil, Declaration.faultsOfAll,
      Declaration.statementsOfAll, complete, ← hm]
    rfl
  | d :: rest, hm, hg => by
    have hd := reads_declaration d hm hg.1
    have hr := reads_declarations rest
      (mode_complete s d.tokens.length (d.faults s.position) [d.statement]) hg.2
    rw [Declaration.tokensOfAll, List.foldl_append, hd, hr, complete_complete, List.length_append]
    rfl

end

end ParseState

namespace Parsed

/-- The tokens before the end marker. -/
def input (tokens : List Token) : List Token :=
  tokens.takeWhile fun t => t.kind ≠ .eof

/-- What is read from the tokens of a derivation. -/
theorem ofTokens_of_derivation {tokens : List Token} {ds : List Declaration}
    (h : Declaration.tokensOfAll ds = input tokens) (hg : Declaration.GuardedAll ds) :
    ofTokens tokens = ⟨Declaration.statementsOfAll ds, Declaration.faultsOfAll 0 ds⟩ := by
  have hr := ParseState.reads_declarations (s := {}) ds rfl hg
  rw [h, input] at hr
  rw [ofTokens, hr]
  simp [ParseState.complete, ParseState.statements, ParseState.faultsAtEnd]

theorem program_of_derivation {tokens : List Token} {ds : List Declaration}
    (h : Declaration.tokensOfAll ds = input tokens) (hg : Declaration.GuardedAll ds)
    (ha : Declaration.AllAssignNames ds) :
    (ofTokens tokens).program = .ok (Declaration.statementsOfAll ds) := by
  rw [ofTokens_of_derivation h hg, Declaration.faultsOfAll_eq_nil ds ha]
  rfl

end Parsed
end BlockScript
