import BlockScript.Proofs.Grammar

/-!
# What a token does to a statement in the making

One lemma for each way a token can be taken, and for operands and operators the list of all ways. A
state that goes on is written as the state before it, advanced by some tokens to a new mode, with the
faults that were found on the way.
-/
namespace BlockScript
open Grammar

theorem BinaryOp.level_le (op : BinaryOp) : op.level ≤ 3 := by
  cases op <;> decide

/-- Whether the complaint is that something else should have come. -/
def Complaint.isExpectation : Complaint → Bool
  | .expectName | .expectExpression | .expectClosingParen | .expectClosingBrace
  | .expectSemicolonAfterDeclaration | .expectSemicolonAfterPrinted
  | .expectSemicolonAfterExpression => true
  | _ => false

namespace ParseState

theorem Goal.isExpectation_unfinished (goal : Goal) : goal.unfinished.isExpectation = true := by
  cases goal <;> rfl

/-- The state some tokens later, in a new mode and with the faults found in between. -/
def advance (s : ParseState) (count : Nat) (mode : Mode) (found : List Fault) : ParseState :=
  { s with position := s.position + count, mode, faults := found.reverse ++ s.faults }

section Advance
variable (s : ParseState) (n : Nat) (mode : Mode) (found : List Fault)

@[simp] theorem position_advance : (s.advance n mode found).position = s.position + n := rfl

@[simp] theorem mode_advance : (s.advance n mode found).mode = mode := rfl

@[simp] theorem body_advance : (s.advance n mode found).body = s.body := rfl

@[simp] theorem outer_advance : (s.advance n mode found).outer = s.outer := rfl

@[simp] theorem faults_advance : (s.advance n mode found).faults = found.reverse ++ s.faults := rfl

@[simp] theorem advance_advance (n' : Nat) (mode' : Mode) (found' : List Fault) :
    (s.advance n mode found).advance n' mode' found' = s.advance (n + n') mode' (found ++ found') := by
  simp [advance, Nat.add_assoc]

end Advance

theorem feed_of_accept {s s' : ParseState} {t : Token} (h : s.accept t = s') :
    s.feed t = { s' with position := s.position + 1 } := by
  rw [feed, h]

/-- Whether the expression being read may contain all identifiers of the tokens. -/
def Goal.Allows (goal : Goal) (tokens : List Token) : Prop :=
  ∀ t ∈ tokens, t.kind = .identifier → goal.defines t.lexeme = false

namespace Goal
variable {goal : Goal} {tokens tokens' : List Token} {t : Token}

@[simp] theorem allows_nil : goal.Allows [] := by
  intro t ht
  simp at ht

@[simp] theorem allows_append :
    goal.Allows (tokens ++ tokens') ↔ goal.Allows tokens ∧ goal.Allows tokens' := by
  simp only [Allows, List.mem_append]
  constructor
  · intro h
    exact ⟨fun t ht => h t (.inl ht), fun t ht => h t (.inr ht)⟩
  · rintro ⟨h, h'⟩ t (ht | ht)
    · exact h t ht
    · exact h' t ht

@[simp] theorem allows_cons :
    goal.Allows (t :: tokens) ↔
      (t.kind = .identifier → goal.defines t.lexeme = false) ∧ goal.Allows tokens := by
  simp [Allows]

theorem allows_of_not_initializer (h : ∀ name, goal ≠ .initializer name) : goal.Allows tokens := by
  intro t _ _
  cases goal with
  | effect => rfl
  | print line => rfl
  | initializer name => exact absurd rfl (h name)

theorem initializer_allows_iff {name : Token} {c : Category} {p : Phrase c} :
    (Goal.initializer name).Allows p.tokens ↔ p.Avoids name.lexeme := by
  constructor
  · intro h t ht hk he
    have hd := h t ht hk
    simp [defines, he] at hd
  · intro h t ht hk
    have hne := h t ht hk
    simp only [defines, beq_eq_false_iff_ne]
    exact hne.symm

end Goal

/-! ### Operands -/

/-- Whether a chain of the given height may begin on the stack, so that the frame on top waits for
all of it. -/
def Admits (height : Nat) : List Frame → Prop
  | .unary _ _ :: _ => False
  | .binary _ op _ :: _ => op.level + height < 4
  | _ => True

section Operand
variable {s : ParseState} {goal : Goal} {stack : List Frame} {t : Token}

theorem acceptOperand_constant {v : Value} (h : t.constant? = some v) :
    s.acceptOperand goal stack t = { s with mode := deliver goal stack (.literal v) } := by
  unfold Token.constant? at h
  unfold acceptOperand
  split at h <;> simp_all

theorem acceptOperand_name (h : t.kind = .identifier) (hg : goal.defines t.lexeme = false) :
    s.acceptOperand goal stack t = { s with mode := deliver goal stack (.var t) } := by
  simp [acceptOperand, h, hg]

theorem acceptOperand_leftParen (h : t.kind = .leftParen) :
    s.acceptOperand goal stack t = { s with mode := .operand goal (.paren :: stack) } := by
  simp [acceptOperand, h]

theorem acceptOperand_sign {op : UnaryOp} (h : UnaryOp.ofKind? t.kind = some op)
    (hs : ∀ op' line rest, stack ≠ .unary op' line :: rest) :
    s.acceptOperand goal stack t = { s with mode := .operand goal (.unary op t.line :: stack) } := by
  unfold acceptOperand
  cases hk : t.kind <;> simp only [hk, UnaryOp.ofKind?, reduceCtorEq, Option.some.injEq] at h <;> subst h
  all_goals
    cases stack with
    | nil => rfl
    | cons f rest =>
      cases f with
      | unary op' line => exact absurd rfl (hs op' line rest)
      | _ => rfl

theorem acceptOperand_selfReference (h : t.kind = .identifier) (hg : goal.defines t.lexeme = true) :
    s.acceptOperand goal stack t =
      { s with
        mode := .skippingNext
        faults := ⟨s.position, t, .selfReference t.lexeme⟩ :: s.faults } := by
  simp [acceptOperand, h, hg]

theorem acceptOperand_secondSign {op : UnaryOp} (h : UnaryOp.ofKind? t.kind = some op) (op' : UnaryOp)
    (line : UInt32) (rest : List Frame) :
    s.acceptOperand goal (.unary op' line :: rest) t = s.fail t .expectExpression := by
  unfold acceptOperand
  cases hk : t.kind <;> simp_all [UnaryOp.ofKind?]

theorem acceptOperand_other (hc : t.constant? = none) (hi : t.kind ≠ .identifier)
    (hp : t.kind ≠ .leftParen) (hu : UnaryOp.ofKind? t.kind = none) :
    s.acceptOperand goal stack t = s.fail t .expectExpression := by
  unfold Token.constant? at hc
  unfold acceptOperand
  cases hk : t.kind <;> simp_all [UnaryOp.ofKind?]
  all_goals split <;> simp_all

/-- All that a token can be where an operand must begin. -/
theorem acceptOperand_cases (s : ParseState) (goal : Goal) (stack : List Frame) (t : Token) :
    (∃ v, t.constant? = some v ∧
      s.acceptOperand goal stack t = { s with mode := deliver goal stack (.literal v) }) ∨
    (t.kind = .identifier ∧ goal.defines t.lexeme = false ∧
      s.acceptOperand goal stack t = { s with mode := deliver goal stack (.var t) }) ∨
    (t.kind = .leftParen ∧
      s.acceptOperand goal stack t = { s with mode := .operand goal (.paren :: stack) }) ∨
    (∃ op, UnaryOp.ofKind? t.kind = some op ∧ (∀ op' line rest, stack ≠ .unary op' line :: rest) ∧
      s.acceptOperand goal stack t = { s with mode := .operand goal (.unary op t.line :: stack) }) ∨
    (t.kind = .identifier ∧
      s.acceptOperand goal stack t =
        { s with
          mode := .skippingNext
          faults := ⟨s.position, t, .selfReference t.lexeme⟩ :: s.faults }) ∨
    s.acceptOperand goal stack t = s.fail t .expectExpression := by
  cases hc : t.constant? with
  | some v => exact .inl ⟨v, rfl, acceptOperand_constant hc⟩
  | none =>
    right
    by_cases hi : t.kind = .identifier
    · cases hg : goal.defines t.lexeme with
      | false => exact .inl ⟨hi, rfl, acceptOperand_name hi hg⟩
      | true => exact .inr (.inr (.inr (.inl ⟨hi, acceptOperand_selfReference hi hg⟩)))
    by_cases hp : t.kind = .leftParen
    · exact .inr (.inl ⟨hp, acceptOperand_leftParen hp⟩)
    right; right
    cases hu : UnaryOp.ofKind? t.kind with
    | none => exact .inr (.inr (acceptOperand_other hc hi hp hu))
    | some op =>
      by_cases hs : ∃ op' line rest, stack = .unary op' line :: rest
      · obtain ⟨op', line, rest, rfl⟩ := hs
        exact .inr (.inr (acceptOperand_secondSign hu op' line rest))
      · left
        have hn : ∀ op' line rest, stack ≠ .unary op' line :: rest :=
          fun op' line rest he => hs ⟨op', line, rest, he⟩
        exact ⟨op, rfl, hn, acceptOperand_sign hu hn⟩

/-- Two states that expect an operand take a token in the same way, if both or neither of them have just
read a sign. -/
theorem acceptOperand_rel {R : ParseState → ParseState → Prop} {s s' : ParseState} {goal : Goal}
    {stack stack' : List Frame} {t : Token}
    (hstack : (∃ op line rest, stack = .unary op line :: rest) ↔ ∃ op line rest, stack' = .unary op line :: rest)
    (hprimary : ∀ e, R { s with mode := deliver goal stack e } { s' with mode := deliver goal stack' e })
    (hparen : R { s with mode := .operand goal (.paren :: stack) }
      { s' with mode := .operand goal (.paren :: stack') })
    (hsign : ∀ op, R { s with mode := .operand goal (.unary op t.line :: stack) }
      { s' with mode := .operand goal (.unary op t.line :: stack') })
    (hself : R
      { s with mode := .skippingNext, faults := ⟨s.position, t, .selfReference t.lexeme⟩ :: s.faults }
      { s' with mode := .skippingNext, faults := ⟨s'.position, t, .selfReference t.lexeme⟩ :: s'.faults })
    (hfail : R (s.fail t .expectExpression) (s'.fail t .expectExpression)) :
    R (s.acceptOperand goal stack t) (s'.acceptOperand goal stack' t) := by
  cases hc : t.constant? with
  | some v =>
    rw [acceptOperand_constant hc, acceptOperand_constant hc]
    exact hprimary _
  | none =>
    by_cases hi : t.kind = .identifier
    · cases hg : goal.defines t.lexeme with
      | false =>
        rw [acceptOperand_name hi hg, acceptOperand_name hi hg]
        exact hprimary _
      | true =>
        rw [acceptOperand_selfReference hi hg, acceptOperand_selfReference hi hg]
        exact hself
    by_cases hp : t.kind = .leftParen
    · rw [acceptOperand_leftParen hp, acceptOperand_leftParen hp]
      exact hparen
    cases hu : UnaryOp.ofKind? t.kind with
    | none =>
      rw [acceptOperand_other hc hi hp hu, acceptOperand_other hc hi hp hu]
      exact hfail
    | some op =>
      by_cases hs : ∃ op line rest, stack = .unary op line :: rest
      · obtain ⟨op₂, line₂, rest₂, rfl⟩ := hstack.1 hs
        obtain ⟨op₁, line₁, rest₁, rfl⟩ := hs
        rw [acceptOperand_secondSign hu, acceptOperand_secondSign hu]
        exact hfail
      · have hs' : ¬ ∃ op line rest, stack' = .unary op line :: rest := fun h => hs (hstack.2 h)
        rw [acceptOperand_sign hu fun op line rest he => hs ⟨op, line, rest, he⟩,
          acceptOperand_sign hu fun op line rest he => hs' ⟨op, line, rest, he⟩]
        exact hsign op

end Operand

/-! ### Operators -/

section Operator
variable {s : ParseState} {goal : Goal} {stack : List Frame} {e : Expr} {t : Token}

theorem acceptOperator_binary {op : BinaryOp} (h : BinaryOp.ofKind? t.kind = some op) :
    s.acceptOperator goal stack e t =
      { s with
        mode := .operand goal
          (.binary (reduce op.level stack e).2 op t.line :: (reduce op.level stack e).1) } := by
  simp [acceptOperator, h]

theorem acceptOperator_equal (h : t.kind = .equal) :
    s.acceptOperator goal stack e t =
      { s with
        mode := .operand goal
          (.assign (reduce 0 stack e).2 s.position t :: (reduce 0 stack e).1) } := by
  simp [acceptOperator, h, BinaryOp.ofKind?]

theorem acceptOperator_rightParen {stack' : List Frame} {e' : Expr} {faults : List Fault}
    (h : t.kind = .rightParen) (hs : settle stack e s.faults = (.paren :: stack', e', faults)) :
    s.acceptOperator goal stack e t =
      { s with mode := deliver goal stack' (.grouping e'), faults } := by
  simp [acceptOperator, h, BinaryOp.ofKind?, hs]

theorem acceptOperator_semicolon {stack' : List Frame} {e' : Expr} {faults : List Fault}
    (h : t.kind = .semicolon) (hs : settle stack e s.faults = (stack', e', faults))
    (hn : ∀ rest, stack' ≠ .paren :: rest) :
    s.acceptOperator goal stack e t = { s with faults }.emit (goal.finish e') := by
  cases stack' with
  | nil => simp [acceptOperator, h, BinaryOp.ofKind?, hs]
  | cons f rest =>
    cases f with
    | paren => exact absurd rfl (hn rest)
    | unary | binary | assign => simp [acceptOperator, h, BinaryOp.ofKind?, hs]

/-- All that a token can be after a complete operand. -/
theorem acceptOperator_cases (s : ParseState) (goal : Goal) (stack : List Frame) (e : Expr)
    (t : Token) :
    (∃ op, BinaryOp.ofKind? t.kind = some op) ∨
    t.kind = .equal ∨
    (t.kind = .rightParen ∧ ∃ rest, (settle stack e s.faults).1 = .paren :: rest) ∨
    (t.kind = .semicolon ∧ ∀ rest, (settle stack e s.faults).1 ≠ .paren :: rest) ∨
    (∃ c : Complaint, c.isExpectation = true ∧
      s.acceptOperator goal stack e t =
        { s with faults := (settle stack e s.faults).2.2 }.fail t c) := by
  cases hb : BinaryOp.ofKind? t.kind with
  | some op => exact .inl ⟨op, rfl⟩
  | none =>
    right
    by_cases he : t.kind = .equal
    · exact .inl he
    right
    by_cases hp : ∃ rest, (settle stack e s.faults).1 = .paren :: rest
    · by_cases hr : t.kind = .rightParen
      · exact .inl ⟨hr, hp⟩
      · obtain ⟨rest, hrest⟩ := hp
        have hs : settle stack e s.faults =
            (.paren :: rest, (settle stack e s.faults).2.1, (settle stack e s.faults).2.2) := by
          rw [← hrest]
        refine .inr (.inr ⟨.expectClosingParen, rfl, ?_⟩)
        rw [acceptOperator, hb, if_neg he, hs]
        simp only [if_neg hr]
    · have hn : ∀ rest, (settle stack e s.faults).1 ≠ .paren :: rest :=
        fun rest h => hp ⟨rest, h⟩
      by_cases hr : t.kind = .semicolon
      · exact .inr (.inl ⟨hr, hn⟩)
      · refine .inr (.inr ⟨goal.unfinished, goal.isExpectation_unfinished, ?_⟩)
        rw [acceptOperator, hb, if_neg he]
        dsimp only
        split
        · next rest e' faults hs => exact absurd (by rw [hs]) (hn rest)
        · next stack' e' faults _ hs => rw [if_neg hr, hs]

end Operator

/-- All that a token can be where a declaration may begin. -/
theorem begin_cases (s : ParseState) (t : Token) :
    (t.kind = .varKw ∧ s.begin t = { s with mode := .name }) ∨
    (t.kind = .printKw ∧ s.begin t = { s with mode := .operand (.print t.line) [] }) ∨
    (t.kind = .leftBrace ∧
      s.begin t = { s with mode := .ready, body := [], outer := s.body :: s.outer }) ∨
    (t.kind = .rightBrace ∧ ∃ body outer, s.outer = body :: outer ∧
      s.begin t = { s with mode := .ready, body := .block s.body.reverse :: body, outer }) ∨
    s.begin t = s.acceptOperand .effect [] t := by
  unfold begin
  cases hk : t.kind <;> simp
  cases ho : s.outer <;> simp

end ParseState
end BlockScript
