import BlockScript.Proofs.ParseSteps

/-!
# Derivations are read

The tokens of a derivation, fed to a state that expects them, give the derived tree and the faults of
the derivation, whatever is being read around it. Operations are completed late, so what is left of a
chain after its last token is a stack of frames; `AmountsTo` says which tree they become.
-/
namespace BlockScript
open Grammar
namespace ParseState

theorem reduce_of_admits {height level : Nat} {stack : List Frame} (e : Expr)
    (h : Admits height stack) (hl : 4 ≤ level + height) : reduce level stack e = (stack, e) := by
  unfold reduce
  split
  · rw [Admits] at h
    rw [if_neg (by omega)]
  · rfl

theorem Admits.not_unary {height : Nat} {stack : List Frame} (h : Admits height stack) :
    ∀ op line rest, stack ≠ .unary op line :: rest := by
  rintro op line rest rfl
  exact h

theorem Admits.mono {height height' : Nat} {stack : List Frame} (h : Admits height stack)
    (hle : height' ≤ height) : Admits height' stack := by
  unfold Admits at *
  split at h
  · exact h
  · omega
  · trivial

theorem deliver_of_not_unary {stack : List Frame} (goal : Goal) (e : Expr)
    (h : ∀ op line rest, stack ≠ .unary op line :: rest) :
    deliver goal stack e = .operator goal stack e := by
  unfold deliver
  split
  · next op line rest => exact absurd rfl (h op line rest)
  · rfl

/-- The frames with the expression above them become the tree as soon as an operator that binds no
tighter than the chains of the given height, or anything else, follows. -/
structure AmountsTo (height : Nat) (pending : List Frame) (e tree : Expr) : Prop where
  reduce_eq : ∀ level stack, level + height ≤ 4 →
    reduce level (pending ++ stack) e = reduce level stack tree
  settle_eq : ∀ stack faults, settle (pending ++ stack) e faults = settle stack tree faults

namespace AmountsTo
variable {height : Nat} {pending : List Frame} {e tree : Expr}

theorem refl (height : Nat) (e : Expr) : AmountsTo height [] e e :=
  ⟨fun _ _ _ => rfl, fun _ _ => rfl⟩

theorem mono {height' : Nat} (h : AmountsTo height pending e tree) (hle : height ≤ height') :
    AmountsTo height' pending e tree :=
  ⟨fun level stack hl => h.reduce_eq level stack (by omega), h.settle_eq⟩

theorem binary (h : AmountsTo height pending e tree) (left : Expr) {op : BinaryOp} (line : UInt32)
    (hl : op.level + height = 3) :
    AmountsTo (height + 1) (pending ++ [.binary left op line]) e (.binary left op line tree) := by
  constructor
  · intro level stack hle
    rw [List.append_assoc, h.reduce_eq _ _ (by omega), List.singleton_append, reduce,
      if_pos (by omega)]
  · intro stack faults
    rw [List.append_assoc, h.settle_eq, List.singleton_append, settle]

end AmountsTo

/-- The settling of an assignment: it leaves its target if that is not a name. -/
theorem settle_assign (target : Expr) (position : Nat) (equals : Token) (stack : List Frame) (e : Expr)
    (faults : List Fault) :
    settle (.assign target position equals :: stack) e faults =
      settle stack (assignment target e) ((targetFaults target position equals).reverse ++ faults) := by
  cases target <;> rfl

/-- What becomes of a state that expects an operand above the stack when a phrase is read. An
expression may leave faults behind that are found only when it is settled. -/
def Reads (goal : Goal) (stack : List Frame) (s : ParseState) : (c : Category) → Phrase c → Prop
  | .primary, p =>
    p.tokens.foldl feed s =
      s.advance p.tokens.length (deliver goal stack p.tree) (p.faults s.position)
  | .chain height, p =>
    Admits height stack → ∃ pending e, AmountsTo height pending e p.tree ∧
      p.tokens.foldl feed s =
        s.advance p.tokens.length (.operator goal (pending ++ stack) e) (p.faults s.position)
  | .expression, p =>
    Admits 4 stack → ∃ pending e early late, early ++ late = p.faults s.position ∧
      (∀ stack faults, settle (pending ++ stack) e faults =
        settle stack p.tree (late.reverse ++ faults)) ∧
      p.tokens.foldl feed s =
        s.advance p.tokens.length (.operator goal (pending ++ stack) e) early

section Feed
variable {goal : Goal} {stack stack' : List Frame} {s : ParseState} {e e' : Expr} {t : Token}

theorem feed_operand (hm : s.mode = .operand goal stack) {mode : Mode}
    (h : s.acceptOperand goal stack t = { s with mode }) : s.feed t = s.advance 1 mode [] := by
  simp only [feed, accept, hm, h]
  rfl

theorem feed_binary (hm : s.mode = .operator goal stack e) {op : BinaryOp}
    (h : BinaryOp.ofKind? t.kind = some op) (hr : reduce op.level stack e = (stack', e')) :
    s.feed t = s.advance 1 (.operand goal (.binary e' op t.line :: stack')) [] := by
  simp only [feed, accept, hm, acceptOperator_binary h, hr]
  rfl

theorem feed_equal (hm : s.mode = .operator goal stack e) (h : t.kind = .equal)
    (hr : reduce 0 stack e = (stack', e')) :
    s.feed t = s.advance 1 (.operand goal (.assign e' s.position t :: stack')) [] := by
  simp only [feed, accept, hm, acceptOperator_equal h, hr]
  rfl

theorem feed_rightParen (hm : s.mode = .operator goal stack e) (h : t.kind = .rightParen)
    {found : List Fault}
    (hs : settle stack e s.faults = (.paren :: stack', e', found.reverse ++ s.faults)) :
    s.feed t = s.advance 1 (deliver goal stack' (.grouping e')) found := by
  simp only [feed, accept, hm, acceptOperator_rightParen h hs]
  rfl

end Feed

section Reads
variable {goal : Goal} {stack : List Frame} {s : ParseState}

theorem reads_constant {t : Token} {v : Value} (hm : s.mode = .operand goal stack)
    (h : t.constant? = some v) : Reads goal stack s .primary (.constant t v h) :=
  feed_operand hm (acceptOperand_constant h)

theorem reads_name {t : Terminal .identifier} (hm : s.mode = .operand goal stack)
    (hg : goal.defines t.1.lexeme = false) : Reads goal stack s .primary (.name t) :=
  feed_operand hm (acceptOperand_name t.2 hg)

theorem reads_paren {opening : Terminal .leftParen} {inner : Phrase .expression}
    {closing : Terminal .rightParen} (hm : s.mode = .operand goal stack)
    (h : Reads goal (.paren :: stack) (s.advance 1 (.operand goal (.paren :: stack)) []) .expression
      inner) :
    Reads goal stack s .primary (.paren opening inner closing) := by
  obtain ⟨pending, e, early, late, hl, hs, hr⟩ := h trivial
  have ho := feed_operand hm (acceptOperand_leftParen opening.2)
  have hc : ((s.advance 1 (.operand goal (.paren :: stack)) []).advance inner.tokens.length
      (.operator goal (pending ++ .paren :: stack) e) early).feed closing.1 = _ :=
    feed_rightParen rfl closing.2 (hs _ _)
  simp only [Reads, Phrase.tokens, List.foldl_cons, List.foldl_append, ho, hr, List.foldl_nil, hc]
  simp only [advance_advance, Phrase.tree, Phrase.faults, List.nil_append, hl, position_advance,
    List.length_cons, List.length_append, List.length_nil]
  congr 1
  omega

theorem reads_plain {operand : Phrase .primary} (h : Reads goal stack s .primary operand) :
    Reads goal stack s (.chain 0) (.plain operand) := by
  intro ha
  refine ⟨[], operand.tree, .refl 0 _, ?_⟩
  rw [List.nil_append, ← deliver_of_not_unary goal _ ha.not_unary]
  exact h

theorem reads_signed {t : Token} {op : UnaryOp} {h : UnaryOp.ofKind? t.kind = some op}
    {operand : Phrase .primary} (hm : s.mode = .operand goal stack)
    (hr : Reads goal (.unary op t.line :: stack)
      (s.advance 1 (.operand goal (.unary op t.line :: stack)) []) .primary operand) :
    Reads goal stack s (.chain 0) (.signed t op h operand) := by
  intro ha
  refine ⟨[], .unary op t.line operand.tree, .refl 0 _, ?_⟩
  have ho := feed_operand hm (acceptOperand_sign h ha.not_unary)
  rw [Reads] at hr
  rw [Phrase.tokens, List.foldl_cons, ho, hr, advance_advance, Nat.add_comm]
  rfl

theorem reads_value {e : Phrase (.chain 4)} (h : Reads goal stack s (.chain 4) e) :
    Reads goal stack s .expression (.value e) := by
  intro ha
  obtain ⟨pending, top, hp, hr⟩ := h ha
  exact ⟨pending, top, _, [], List.append_nil _, fun stack faults => hp.settle_eq stack faults, hr⟩

theorem reads_assign {target : Phrase (.chain 4)} {equals : Terminal .equal}
    {value : Phrase .expression} {stack' : List Frame} {s' : ParseState}
    (hstack : stack' = .assign target.tree (s.position + target.tokens.length) equals.1 :: stack)
    (hs' : s' = s.advance (target.tokens.length + 1) (.operand goal stack') (target.faults s.position))
    (ht : Reads goal stack s (.chain 4) target) (hv : Reads goal stack' s' .expression value) :
    Reads goal stack s .expression (.assign target equals value) := by
  subst hstack hs'
  intro ha
  obtain ⟨pending, e, hp, hr⟩ := ht ha
  have hq : reduce 0 (pending ++ stack) e = (stack, target.tree) := by
    rw [hp.reduce_eq 0 stack (by omega), reduce_of_admits _ ha (by omega)]
  have he := feed_equal (s := s.advance target.tokens.length (.operator goal (pending ++ stack) e)
    (target.faults s.position)) rfl equals.2 hq
  obtain ⟨pending', e', early, late, hl, hs, hr'⟩ := hv trivial
  refine ⟨pending' ++ [.assign target.tree (s.position + target.tokens.length) equals.1], e',
    target.faults s.position ++ early,
    late ++ targetFaults target.tree (s.position + target.tokens.length) equals.1, ?_, ?_, ?_⟩
  · rw [position_advance, ← Nat.add_assoc] at hl
    simp only [Phrase.faults, ← hl, List.append_assoc]
  · intro stack faults
    rw [List.append_assoc, hs, List.singleton_append, settle_assign]
    simp only [Phrase.tree, List.reverse_append, List.append_assoc]
  · simp only [position_advance] at he
    simp only [Phrase.tokens, List.foldl_append, List.foldl_cons, hr, he, advance_advance,
      List.append_nil, hr', List.append_assoc, List.singleton_append, List.length_append,
      List.length_cons]
    congr 1
    omega

theorem reads_chain {height : Nat} {first : Phrase (.chain height)} {links : Links height}
    (hf : Reads goal stack s (.chain height) first)
    (hl : ∀ pending e, AmountsTo (height + 1) pending e first.tree → Admits (height + 1) stack →
      ∃ pending' e', AmountsTo (height + 1) pending' e' (links.tree first.tree) ∧
        links.tokens.foldl feed (s.advance first.tokens.length (.operator goal (pending ++ stack) e)
          (first.faults s.position)) =
        s.advance (first.tokens.length + links.tokens.length) (.operator goal (pending' ++ stack) e')
          (first.faults s.position ++ links.faults (s.position + first.tokens.length))) :
    Reads goal stack s (.chain (height + 1)) (.chain first links) := by
  intro ha
  obtain ⟨pending, e, hp, hr⟩ := hf (ha.mono (by omega))
  obtain ⟨pending', e', hp', hr'⟩ := hl pending e (hp.mono (by omega)) ha
  refine ⟨pending', e', hp', ?_⟩
  rw [Phrase.tokens, List.foldl_append, hr, hr', List.length_append]
  rfl

end Reads

mutual

theorem reads_phrase {goal : Goal} {stack : List Frame} {s : ParseState} :
    {c : Category} → (p : Phrase c) → s.mode = .operand goal stack → goal.Allows p.tokens →
      Reads goal stack s c p
  | _, .constant t v h, hm, _ => reads_constant hm h
  | _, .name t, hm, hg => reads_name hm (hg t.1 (by simp [Phrase.tokens]) t.2)
  | _, .paren opening inner closing, hm, hg => by
    rw [Phrase.tokens] at hg
    simp only [Goal.allows_cons, Goal.allows_append] at hg
    exact reads_paren hm (reads_phrase inner rfl hg.2.1)
  | _, .plain operand, hm, hg => reads_plain (reads_phrase operand hm hg)
  | _, .signed t op h operand, hm, hg => by
    rw [Phrase.tokens, Goal.allows_cons] at hg
    exact reads_signed hm (reads_phrase operand rfl hg.2)
  | _, .chain first links, hm, hg => by
    rw [Phrase.tokens, Goal.allows_append] at hg
    refine reads_chain (reads_phrase first hm hg.1) ?_
    intro pending e hp ha
    obtain ⟨pending', e', hp', hr⟩ := reads_links links
      (mode_advance s first.tokens.length (.operator goal (pending ++ stack) e)
        (first.faults s.position)) hp ha hg.2
    refine ⟨pending', e', hp', ?_⟩
    rw [hr, advance_advance, position_advance]
  | _, .value e, hm, hg => reads_value (reads_phrase e hm hg)
  | _, .assign target equals value, hm, hg => by
    rw [Phrase.tokens, Goal.allows_append, Goal.allows_cons] at hg
    exact reads_assign rfl rfl (reads_phrase target hm hg.1) (reads_phrase value rfl hg.2.2)

/-- The links extend what stands before them to the left operand of whatever follows. -/
theorem reads_links {goal : Goal} {stack : List Frame} {s : ParseState} {height : Nat}
    {pending : List Frame} {e left : Expr} :
    (links : Links height) → s.mode = .operator goal (pending ++ stack) e →
      AmountsTo (height + 1) pending e left → Admits (height + 1) stack →
      goal.Allows links.tokens →
      ∃ pending' e', AmountsTo (height + 1) pending' e' (links.tree left) ∧
        links.tokens.foldl feed s =
          s.advance links.tokens.length (.operator goal (pending' ++ stack) e')
            (links.faults s.position)
  | .nil, hm, hp, _, _ => by
    refine ⟨pending, e, hp, ?_⟩
    rw [← hm]
    rfl
  | .cons t op h hl right rest, hm, hp, ha, hg => by
    rw [Links.tokens, Goal.allows_cons, Goal.allows_append] at hg
    have hq : reduce op.level (pending ++ stack) e = (stack, left) := by
      rw [hp.reduce_eq _ _ (by omega), reduce_of_admits _ ha (by omega)]
    have ho := feed_binary hm h hq
    have hadm : Admits height (.binary left op t.line :: stack) := by
      rw [Admits]
      omega
    obtain ⟨pending', e', hp', hr⟩ := reads_phrase right
      (mode_advance s 1 (.operand goal (.binary left op t.line :: stack)) []) hg.2.1 hadm
    obtain ⟨pending'', e'', hp'', hr'⟩ := reads_links rest
      (mode_advance s (1 + right.tokens.length)
        (.operator goal (pending' ++ [.binary left op t.line] ++ stack) e')
        (right.faults (s.position + 1)))
      (hp'.binary left t.line hl) ha hg.2.2
    refine ⟨pending'', e'', hp'', ?_⟩
    rw [List.append_assoc, List.singleton_append] at hr'
    simp only [Links.tokens, List.foldl_cons, List.foldl_append, ho, hr, advance_advance,
      List.nil_append, position_advance, hr', List.length_cons, List.length_append, Links.faults,
      Nat.add_assoc]
    congr 1
    omega

end

end ParseState
end BlockScript
