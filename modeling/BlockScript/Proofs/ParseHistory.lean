import BlockScript.Proofs.ProgramReading

/-!
# What a state has read

A state without faults accounts for all tokens that it was fed (`HasRead`): they are those of finished
declarations, of the blocks that are open, and of one declaration that is being read, whose stack of
frames stands for a prefix of a derivation. Every token that finds no fault keeps this, so a list of
tokens without faults has a derivation.
-/
namespace BlockScript
namespace Grammar

/-! ### Chains that grow -/

theorem exists_chain {height height' : Nat} (hle : height ≤ height') (p : Phrase (.chain height)) :
    ∃ q : Phrase (.chain height'), q.tokens = p.tokens ∧ q.tree = p.tree ∧
      (p.AssignsNames → q.AssignsNames) := by
  induction hle with
  | refl => exact ⟨p, rfl, rfl, id⟩
  | step _ ih =>
    obtain ⟨q, ht, he, ha⟩ := ih
    exact ⟨.chain q .nil, by simp [Phrase.tokens, Links.tokens, ht], he, fun h => ⟨ha h, trivial⟩⟩

/-- The links with one more at their end. -/
def Links.snoc {height : Nat} (t : Token) (op : BinaryOp) (h : BinaryOp.ofKind? t.kind = some op)
    (hl : op.level + height = 3) (right : Phrase (.chain height)) : Links height → Links height
  | .nil => .cons t op h hl right .nil
  | .cons t' op' h' hl' right' rest => .cons t' op' h' hl' right' (rest.snoc t op h hl right)

section Snoc
variable {height : Nat} {t : Token} {op : BinaryOp} {h : BinaryOp.ofKind? t.kind = some op}
  {hl : op.level + height = 3} {right : Phrase (.chain height)}

theorem Links.tokens_snoc : (links : Links height) →
    (links.snoc t op h hl right).tokens = links.tokens ++ t :: right.tokens
  | .nil => by simp [snoc, tokens]
  | .cons t' op' h' hl' right' rest => by simp [snoc, tokens, rest.tokens_snoc]

theorem Links.tree_snoc : (links : Links height) → (left : Expr) →
    (links.snoc t op h hl right).tree left = .binary (links.tree left) op t.line right.tree
  | .nil, _ => rfl
  | .cons _ op' _ _ _ rest, left => rest.tree_snoc (.binary left op' _ _)

theorem Links.assignNames_snoc (hr : right.AssignsNames) : (links : Links height) →
    links.AssignNames → (links.snoc t op h hl right).AssignNames
  | .nil, _ => ⟨hr, trivial⟩
  | .cons _ _ _ _ _ rest, ha => ⟨ha.1, rest.assignNames_snoc hr ha.2⟩

theorem exists_binary (left : Phrase (.chain (height + 1))) (h : BinaryOp.ofKind? t.kind = some op)
    (hl : op.level + height = 3) (right : Phrase (.chain height)) :
    ∃ q : Phrase (.chain (height + 1)), q.tokens = left.tokens ++ t :: right.tokens ∧
      q.tree = .binary left.tree op t.line right.tree ∧
      (left.AssignsNames → right.AssignsNames → q.AssignsNames) := by
  cases left with
  | chain first links =>
    refine ⟨.chain first (links.snoc t op h hl right), ?_, links.tree_snoc first.tree, ?_⟩
    · simp [Phrase.tokens, Links.tokens_snoc]
    · exact fun ha hr => ⟨ha.1, links.assignNames_snoc hr ha.2⟩

end Snoc
end Grammar

open Grammar
namespace ParseState

/-! ### Stacks -/

/-- The tokens that the frames stand for, when every assignment is to a name. -/
inductive StackReads : List Frame → List Token → Prop where
  | nil : StackReads [] []
  | paren {stack w} (h : StackReads stack w) (opening : Terminal .leftParen) :
      StackReads (.paren :: stack) (w ++ [opening.1])
  | unary {stack w} (h : StackReads stack w) {t : Token} {op : UnaryOp}
      (hop : UnaryOp.ofKind? t.kind = some op)
      (hn : ∀ op' line rest, stack ≠ .unary op' line :: rest) :
      StackReads (.unary op t.line :: stack) (w ++ [t])
  | binary {stack w} (h : StackReads stack w) {height : Nat} (left : Phrase (.chain (height + 1)))
      (hleft : left.AssignsNames) {t : Token} {op : BinaryOp}
      (hop : BinaryOp.ofKind? t.kind = some op) (hl : op.level + height = 3)
      (ha : Admits (height + 1) stack) :
      StackReads (.binary left.tree op t.line :: stack) (w ++ left.tokens ++ [t])
  | assign {stack w} (h : StackReads stack w) (target : Phrase (.chain 4)) (position : Nat)
      (equals : Terminal .equal) (ha : Admits 4 stack) :
      StackReads (.assign target.tree position equals.1 :: stack) (w ++ target.tokens ++ [equals.1])

/-- An operand after the frames completes the sign that waits for it. -/
theorem StackReads.deliver {stack : List Frame} {w : List Token} (h : StackReads stack w)
    (goal : Goal) (p : Phrase .primary) (hp : p.AssignsNames) :
    ∃ stack' w', ∃ q : Phrase (.chain 0), deliver goal stack p.tree = .operator goal stack' q.tree ∧
      StackReads stack' w' ∧ Admits 0 stack' ∧ w' ++ q.tokens = w ++ p.tokens ∧ q.AssignsNames := by
  have admits {stack : List Frame} (hn : ∀ op line rest, stack ≠ .unary op line :: rest) :
      Admits 0 stack := by
    unfold Admits
    split
    · next op line rest => exact hn op line rest rfl
    · next op line rest => have hle := op.level_le; omega
    · trivial
  cases h with
  | nil => exact ⟨_, _, .plain p, rfl, .nil, trivial, rfl, hp⟩
  | paren h opening => exact ⟨_, _, .plain p, rfl, .paren h opening, trivial, rfl, hp⟩
  | unary h hop hn =>
    exact ⟨_, _, .signed _ _ hop p, rfl, h, admits hn, by simp [Phrase.tokens], hp⟩
  | binary h left hleft hop hl ha =>
    exact ⟨_, _, .plain p, rfl, .binary h left hleft hop hl ha, admits (by simp), rfl, hp⟩
  | assign h target position equals ha =>
    exact ⟨_, _, .plain p, rfl, .assign h target position equals ha, trivial, rfl, hp⟩

/-- The outcome of reducing frames: a chain that is all the next operator can take, above frames that
wait for it. The tokens are those of the frames and the chain before. -/
def Reduces (level top : Nat) (stack : List Frame) (w : List Token) {height : Nat}
    (p : Phrase (.chain height)) : Prop :=
  ∃ stack' w', ∃ q : Phrase (.chain top),
    reduce level stack p.tree = (stack', q.tree) ∧ StackReads stack' w' ∧
      Admits top stack' ∧ w' ++ q.tokens = w ++ p.tokens ∧ q.AssignsNames

theorem StackReads.reduces_of_admits {stack : List Frame} {w : List Token} (h : StackReads stack w)
    {level top height : Nat} {p : Phrase (.chain height)} (hlevel : level + top = 4)
    (hp : p.AssignsNames) (ha : Admits top stack) (hle : height ≤ top) :
    Reduces level top stack w p := by
  obtain ⟨q, ht, he, hq⟩ := exists_chain hle p
  refine ⟨stack, w, q, ?_, h, ha, by rw [ht], hq hp⟩
  rw [reduce_of_admits _ ha (by omega), he]

theorem StackReads.reduces {stack : List Frame} {w : List Token} (h : StackReads stack w)
    {level top : Nat} (hlevel : level + top = 4) :
    ∀ {height : Nat} {p : Phrase (.chain height)}, p.AssignsNames → Admits height stack →
    height ≤ top → Reduces level top stack w p := by
  induction h with
  | nil => exact fun hp _ hle => StackReads.nil.reduces_of_admits hlevel hp trivial hle
  | paren h opening _ =>
    exact fun hp _ hle => (h.paren opening).reduces_of_admits hlevel hp trivial hle
  | unary h hop hn _ => exact fun _ ha _ => absurd ha id
  | assign h target position equals ha _ =>
    exact fun hp _ hle => (h.assign target position equals ha).reduces_of_admits hlevel hp trivial hle
  | @binary stack w h k left hleft t op hop hl ha ih =>
    intro height p hp hadm hle
    have hlt : op.level + height < 4 := hadm
    by_cases hop' : level ≤ op.level
    · -- the frame binds tightly enough, and becomes the right end of the chain
      have hlek : height ≤ k := by omega
      obtain ⟨right, htokens, htree, hright⟩ := exists_chain hlek p
      obtain ⟨q, hqt, hqe, hq⟩ := exists_binary left hop hl right
      obtain ⟨stack', w', r, hr, hs, ha', hw, hn⟩ := ih (hq hleft (hright hp)) ha (by omega)
      refine ⟨stack', w', r, ?_, hs, ha', ?_, hn⟩
      · rw [reduce, if_pos hop', ← htree, ← hqe, hr]
      · rw [hw, hqt, htokens]
        simp
    · have ha' : Admits top (.binary left.tree op t.line :: stack) := by
        rw [Admits]
        omega
      exact (h.binary left hleft hop hl ha).reduces_of_admits hlevel hp ha' hle

theorem settle_reduce (level : Nat) (stack : List Frame) (e : Expr) (faults : List Fault) :
    settle (reduce level stack e).1 (reduce level stack e).2 faults = settle stack e faults := by
  induction stack generalizing e with
  | nil => rfl
  | cons f stack ih =>
    cases f with
    | binary left op line =>
      rw [reduce]
      split
      · rw [ih, settle]
      · rfl
    | paren | unary | assign => rfl

theorem complaint_of_mem_targetFaults {target : Expr} {position : Nat} {equals : Token} {f : Fault}
    (h : f ∈ targetFaults target position equals) : f.complaint = .invalidTarget := by
  unfold targetFaults at h
  split at h
  · cases h
  · obtain rfl := List.mem_singleton.1 h
    rfl

/-- All that settling can find is assignments to something other than a name. -/
theorem settle_faults (stack : List Frame) (e : Expr) (faults : List Fault) :
    ∃ found : List Fault, (∀ f ∈ found, f.complaint = .invalidTarget) ∧
      (settle stack e faults).2.2 = found ++ faults := by
  induction stack generalizing e faults with
  | nil => exact ⟨[], by simp, rfl⟩
  | cons f stack ih =>
    cases f with
    | binary left op line => exact ih _ faults
    | assign target position equals =>
      obtain ⟨found, hfound, h⟩ := ih (assignment target e)
        ((targetFaults target position equals).reverse ++ faults)
      rw [settle_assign, h]
      refine ⟨found ++ (targetFaults target position equals).reverse, fun f hf => ?_, by simp⟩
      rcases List.mem_append.1 hf with hf | hf
      · exact hfound f hf
      · exact complaint_of_mem_targetFaults (List.mem_reverse.1 hf)
    | paren | unary => exact ⟨[], by simp, rfl⟩

/-- The outcome of settling frames: an expression above what it stands in, an open parenthesis or
nothing. -/
def Settles (stack : List Frame) (w : List Token) {c : Category} (p : Phrase c) : Prop :=
  ∃ stack' w', ∃ q : Phrase .expression, settle stack p.tree [] = (stack', q.tree, []) ∧
    StackReads stack' w' ∧ (stack' = [] ∨ ∃ rest, stack' = .paren :: rest) ∧
    w' ++ q.tokens = w ++ p.tokens ∧ q.AssignsNames

theorem StackReads.settles_expression {stack : List Frame} {w : List Token} (h : StackReads stack w) :
    ∀ {e : Phrase .expression}, e.AssignsNames → Admits 4 stack →
    (settle stack e.tree []).2.2 = [] → Settles stack w e := by
  induction h with
  | nil => exact fun {e} he _ _ => ⟨[], [], e, rfl, .nil, .inl rfl, rfl, he⟩
  | @paren stack w h opening _ =>
    exact fun {e} he _ _ => ⟨_, _, e, rfl, h.paren opening, .inr ⟨stack, rfl⟩, rfl, he⟩
  | unary h hop hn _ => exact fun _ ha => absurd ha id
  | @binary stack w h k left hleft t op hop hl ha _ =>
    intro e _ hadm
    have hlt : op.level + 4 < 4 := hadm
    omega
  | @assign stack w h target position equals ha ih =>
    intro e he _ hf
    rw [settle_assign] at hf
    obtain ⟨found, -, hfound⟩ := settle_faults stack (assignment target.tree e.tree)
      ((targetFaults target.tree position equals.1).reverse ++ [])
    rw [hfound] at hf
    have ht : targetFaults target.tree position equals.1 = [] := by
      simp only [List.append_nil, List.append_eq_nil_iff, List.reverse_eq_nil_iff] at hf
      exact hf.2
    -- only a name leaves no fault behind
    obtain ⟨name, hname⟩ : ∃ name, target.tree = .var name := by
      unfold targetFaults at ht
      split at ht
      · next name he => exact ⟨name, he⟩
      · cases ht
    obtain ⟨htokens, hkind⟩ := target.tokens_of_tree_eq_var hname
    have hq : (Phrase.assign target equals e).AssignsNames := ⟨⟨⟨name, hkind⟩, htokens⟩, he⟩
    have hs : (settle stack (Phrase.assign target equals e).tree []).2.2 = [] := by
      rw [ht] at hfound hf
      exact hfound.trans hf
    obtain ⟨stack', w', q, hr, hstack, htop, hw, hn⟩ := ih hq ha hs
    refine ⟨stack', w', q, ?_, hstack, htop, ?_, hn⟩
    · rw [settle_assign, ht]
      exact hr
    · rw [hw, Phrase.tokens]
      simp

theorem StackReads.settles {stack : List Frame} {w : List Token} (h : StackReads stack w)
    {height : Nat} {p : Phrase (.chain height)} (hp : p.AssignsNames) (ha : Admits height stack)
    (hle : height ≤ 4) (hf : (settle stack p.tree []).2.2 = []) : Settles stack w p := by
  have htop : 0 + 4 = 4 := rfl
  obtain ⟨stack', w', e, hr, hs, ha', hw, he⟩ := h.reduces htop hp ha hle
  rw [← settle_reduce 0, hr] at hf
  obtain ⟨stack'', w'', q, hr', hs', htop, hw', hq⟩ :=
    hs.settles_expression (e := .value e) he ha' hf
  refine ⟨stack'', w'', q, ?_, hs', htop, hw'.trans hw, hq⟩
  rw [← settle_reduce 0, hr]
  exact hr'

/-! ### Modes -/

/-- The tokens that were read before the expression for the goal begins. -/
inductive GoalReads : Goal → List Token → Prop where
  | effect : GoalReads .effect []
  | print (keyword : Terminal .printKw) : GoalReads (.print keyword.1.line) [keyword.1]
  | initializer (keyword : Terminal .varKw) (name : Terminal .identifier) (equals : Terminal .equal) :
      GoalReads (.initializer name.1) [keyword.1, name.1, equals.1]

/-- The goal, an expression for it and a semicolon are a declaration. -/
theorem GoalReads.exists_declaration {goal : Goal} {v : List Token} (h : GoalReads goal v)
    {p : Phrase .expression} (hp : p.AssignsNames) (hg : goal.Allows p.tokens)
    (semicolon : Terminal .semicolon) :
    ∃ d : Declaration, d.tokens = v ++ p.tokens ++ [semicolon.1] ∧
      d.statement = goal.finish p.tree ∧ d.Guarded ∧ d.AssignsNames := by
  cases h with
  | effect => exact ⟨.effect p semicolon, rfl, rfl, trivial, hp⟩
  | print keyword => exact ⟨.print keyword p semicolon, by simp [Declaration.tokens], rfl, trivial, hp⟩
  | initializer keyword name equals =>
    refine ⟨.define keyword name equals p semicolon, by simp [Declaration.tokens], rfl, ?_, hp⟩
    exact Goal.initializer_allows_iff.1 hg

/-- The tokens of the declaration that is being read. -/
inductive ModeReads : Mode → List Token → Prop where
  | ready : ModeReads .ready []
  | name (keyword : Terminal .varKw) : ModeReads .name [keyword.1]
  | afterName (keyword : Terminal .varKw) (name : Terminal .identifier) :
      ModeReads (.afterName name.1) [keyword.1, name.1]
  | operand {goal v stack w} (hv : GoalReads goal v) (hs : StackReads stack w) (hg : goal.Allows w) :
      ModeReads (.operand goal stack) (v ++ w)
  | operator {goal v stack w} (hv : GoalReads goal v) (hs : StackReads stack w)
      (p : Phrase (.chain 0)) (hp : p.AssignsNames) (ha : Admits 0 stack)
      (hg : goal.Allows (w ++ p.tokens)) :
      ModeReads (.operator goal stack p.tree) (v ++ (w ++ p.tokens))

section Operand
variable {s : ParseState} {goal : Goal} {v w : List Token} {stack : List Frame} {t : Token}

theorem ModeReads.deliver (hv : GoalReads goal v) (hs : StackReads stack w) {p : Phrase .primary}
    (hp : p.AssignsNames) (hg : goal.Allows (w ++ p.tokens)) :
    ModeReads (deliver goal stack p.tree) (v ++ (w ++ p.tokens)) := by
  obtain ⟨stack', w', q, hd, hs', ha, hw, hq⟩ := hs.deliver goal p hp
  rw [hd, ← hw]
  exact .operator hv hs' q hq ha (hw ▸ hg)

/-- An operand's token without a fault leaves all else as it was. -/
theorem ModeReads.acceptOperand (hv : GoalReads goal v) (hs : StackReads stack w)
    (hg : goal.Allows w) (hf : (s.acceptOperand goal stack t).faults = []) :
    ∃ mode, s.acceptOperand goal stack t = { s with mode } ∧ ModeReads mode (v ++ (w ++ [t])) := by
  have hg' (h : t.kind ≠ .identifier) : goal.Allows (w ++ [t]) := by
    simp [hg, h]
  rcases acceptOperand_cases s goal stack t with
    ⟨value, hc, he⟩ | ⟨hk, hd, he⟩ | ⟨hk, he⟩ | ⟨op, hop, hn, he⟩ | ⟨-, he⟩ | he
  · have hk : t.kind ≠ .identifier := by
      intro hk
      simp [Token.constant?, hk] at hc
    exact ⟨_, he, .deliver hv hs (p := .constant t value hc) trivial (hg' hk)⟩
  · have ha : goal.Allows (w ++ [t]) := by simp [hg, hd]
    exact ⟨_, he, .deliver hv hs (p := .name ⟨t, hk⟩) trivial ha⟩
  · exact ⟨_, he, .operand hv (hs.paren ⟨t, hk⟩) (hg' (by simp [hk]))⟩
  · have hk : t.kind ≠ .identifier := by
      intro hk
      simp [UnaryOp.ofKind?, hk] at hop
    exact ⟨_, he, .operand hv (hs.unary hop hn) (hg' hk)⟩
  · rw [he] at hf
    cases hf
  · rw [he] at hf
    cases hf

end Operand

section Operator
variable {s : ParseState} {goal : Goal} {v w : List Token} {stack : List Frame}
  {p : Phrase (.chain 0)} {t : Token}

theorem ModeReads.acceptOperator_rightParen (hv : GoalReads goal v) (hs : StackReads stack w)
    (hp : p.AssignsNames) (ha : Admits 0 stack) (hg : goal.Allows (w ++ p.tokens)) (hf : s.faults = [])
    (hk : t.kind = .rightParen) {rest : List Frame}
    (hrest : (settle stack p.tree s.faults).1 = .paren :: rest)
    (hf' : (s.acceptOperator goal stack p.tree t).faults = []) :
    ∃ mode, s.acceptOperator goal stack p.tree t = { s with mode } ∧
      ModeReads mode (v ++ (w ++ p.tokens ++ [t])) := by
  obtain ⟨⟨stack', e', faults⟩, hset⟩ : ∃ r, settle stack p.tree s.faults = r := ⟨_, rfl⟩
  obtain rfl : stack' = .paren :: rest := by rw [← hrest, hset]
  have he : s.acceptOperator goal stack p.tree t = _ := ParseState.acceptOperator_rightParen hk hset
  have hnone : (settle stack p.tree s.faults).2.2 = [] := by
    rw [he] at hf'
    rw [hset]
    exact hf'
  rw [hf] at hnone
  obtain ⟨_, w', q, hr, hs', -, hw, hq⟩ := hs.settles hp ha (by omega) hnone
  rw [hf, hr] at hset
  cases hset
  cases hs' with
  | @paren _ w₀ hs'' opening =>
    have htokens : w₀ ++ (Phrase.paren opening q ⟨t, hk⟩).tokens = w ++ p.tokens ++ [t] := by
      rw [← hw, Phrase.tokens]
      simp
    have hallows : goal.Allows (w ++ p.tokens ++ [t]) := by
      simp [Goal.allows_append.1 hg, hk]
    refine ⟨_, by rw [he, ← hf], ?_⟩
    rw [← htokens]
    exact .deliver hv hs'' (p := .paren opening q ⟨t, hk⟩) hq (htokens ▸ hallows)

theorem ModeReads.acceptOperator_semicolon (hv : GoalReads goal v) (hs : StackReads stack w)
    (hp : p.AssignsNames) (ha : Admits 0 stack) (hg : goal.Allows (w ++ p.tokens)) (hf : s.faults = [])
    (hk : t.kind = .semicolon) (hn : ∀ rest, (settle stack p.tree s.faults).1 ≠ .paren :: rest)
    (hf' : (s.acceptOperator goal stack p.tree t).faults = []) :
    ∃ d : Declaration, s.acceptOperator goal stack p.tree t = s.emit d.statement ∧
      d.tokens = v ++ (w ++ p.tokens ++ [t]) ∧ d.Guarded ∧ d.AssignsNames := by
  have he : s.acceptOperator goal stack p.tree t = _ := ParseState.acceptOperator_semicolon hk rfl hn
  have hnone : (settle stack p.tree s.faults).2.2 = [] := by
    rw [he] at hf'
    exact hf'
  rw [hf] at hnone hn he
  obtain ⟨_, w', q, hr, hs', htop, hw, hq⟩ := hs.settles hp ha (by omega) hnone
  rw [hr] at hn he
  rcases htop with rfl | ⟨rest, rfl⟩
  · cases hs' with
    | nil =>
      obtain ⟨d, hd, hstatement, hguard, hnames⟩ :=
        hv.exists_declaration hq (by rw [← hw] at hg; exact hg) ⟨t, hk⟩
      refine ⟨d, ?_, ?_, hguard, hnames⟩
      · rw [he, hstatement, ← hf]
      · rw [hd, ← hw, List.nil_append, List.append_assoc]
  · exact absurd rfl (hn rest)

/-- A token after an operand without a fault goes on with the expression, or ends the declaration. -/
theorem ModeReads.acceptOperator (hv : GoalReads goal v) (hs : StackReads stack w)
    (hp : p.AssignsNames) (ha : Admits 0 stack) (hg : goal.Allows (w ++ p.tokens))
    (hf : s.faults = []) (hf' : (s.acceptOperator goal stack p.tree t).faults = []) :
    (∃ mode, s.acceptOperator goal stack p.tree t = { s with mode } ∧
      ModeReads mode (v ++ (w ++ p.tokens ++ [t]))) ∨
    (∃ d : Declaration, s.acceptOperator goal stack p.tree t = s.emit d.statement ∧
      d.tokens = v ++ (w ++ p.tokens ++ [t]) ∧ d.Guarded ∧ d.AssignsNames) := by
  have hg' (h : t.kind ≠ .identifier) : goal.Allows (w ++ p.tokens ++ [t]) := by
    simp [Goal.allows_append.1 hg, h]
  rcases acceptOperator_cases s goal stack p.tree t with
    ⟨op, hop⟩ | hk | ⟨hk, rest, hrest⟩ | ⟨hk, hn⟩ | ⟨c, -, he⟩
  · left
    have hl : op.level + (3 - op.level) = 3 := Nat.add_sub_cancel' op.level_le
    have htop : op.level + (3 - op.level + 1) = 4 := by omega
    obtain ⟨stack', w', q, hr, hs', ha', hw, hq⟩ := hs.reduces htop hp ha (by omega)
    have hk : t.kind ≠ .identifier := by
      intro hk
      simp [BinaryOp.ofKind?, hk] at hop
    refine ⟨_, acceptOperator_binary hop, ?_⟩
    rw [hr, ← hw]
    exact .operand hv (hs'.binary q hq hop hl ha') (hw ▸ hg' hk)
  · left
    have htop : 0 + 4 = 4 := rfl
    obtain ⟨stack', w', q, hr, hs', ha', hw, hq⟩ := hs.reduces htop hp ha (by omega)
    refine ⟨_, acceptOperator_equal hk, ?_⟩
    rw [hr, ← hw]
    exact .operand hv (hs'.assign q s.position ⟨t, hk⟩ ha') (hw ▸ hg' (by simp [hk]))
  · exact .inl (ModeReads.acceptOperator_rightParen hv hs hp ha hg hf hk hrest hf')
  · exact .inr (ModeReads.acceptOperator_semicolon hv hs hp ha hg hf hk hn hf')
  · rw [he] at hf'
    cases hf'

end Operator

/-! ### States -/

/-- The tokens of the blocks that are open. -/
inductive OuterReads : List (List Stmt) → List Token → Prop where
  | nil : OuterReads [] []
  | cons {outer w} (h : OuterReads outer w) (ds : List Declaration)
      (hg : Declaration.GuardedAll ds) (ha : Declaration.AllAssignNames ds)
      (opening : Terminal .leftBrace) :
      OuterReads ((Declaration.statementsOfAll ds).reverse :: outer)
        (w ++ Declaration.tokensOfAll ds ++ [opening.1])

/-- The tokens before the declaration being read: those of the open blocks, and the declarations of the
innermost of them. -/
structure BodyReads (body : List Stmt) (outer : List (List Stmt)) (ds : List Declaration)
    (w : List Token) : Prop where
  outer : OuterReads outer w
  body_eq : body = (Declaration.statementsOfAll ds).reverse
  guarded : Declaration.GuardedAll ds
  assignNames : Declaration.AllAssignNames ds

/-- A state without faults that was fed the tokens. -/
def HasRead (s : ParseState) (tokens : List Token) : Prop :=
  s.faults = [] ∧ ∃ w ds v, BodyReads s.body s.outer ds w ∧ ModeReads s.mode v ∧
    tokens = w ++ Declaration.tokensOfAll ds ++ v

theorem BodyReads.append {body : List Stmt} {outer : List (List Stmt)} {ds : List Declaration}
    {w : List Token} (h : BodyReads body outer ds w) {d : Declaration} (hg : d.Guarded)
    (ha : d.AssignsNames) : BodyReads (d.statement :: body) outer (ds ++ [d]) w where
  outer := h.outer
  body_eq := by
    rw [h.body_eq, Declaration.statementsOfAll_append, List.reverse_append]
    rfl
  guarded := (Declaration.guardedAll_append _ _).2 ⟨h.guarded, hg, trivial⟩
  assignNames := (Declaration.allAssignNames_append _ _).2 ⟨h.assignNames, ha, trivial⟩

section Feed
variable {s : ParseState} {ds : List Declaration} {w v : List Token} {t : Token}

theorem HasRead.of_mode {mode : Mode} (hf : s.faults = []) (hb : BodyReads s.body s.outer ds w)
    (he : s.accept t = { s with mode }) (hm : ModeReads mode (v ++ [t])) :
    (s.feed t).HasRead (w ++ Declaration.tokensOfAll ds ++ v ++ [t]) := by
  rw [feed_of_accept he]
  exact ⟨hf, w, ds, v ++ [t], hb, hm, by rw [List.append_assoc]⟩

theorem HasRead.of_declaration {d : Declaration} (hf : s.faults = [])
    (hb : BodyReads s.body s.outer ds w) (he : s.accept t = s.emit d.statement)
    (hd : d.tokens = v ++ [t]) (hg : d.Guarded) (ha : d.AssignsNames) :
    (s.feed t).HasRead (w ++ Declaration.tokensOfAll ds ++ v ++ [t]) := by
  rw [feed_of_accept he]
  refine ⟨hf, w, ds ++ [d], [], hb.append hg ha, .ready, ?_⟩
  simp [Declaration.tokensOfAll_append, Declaration.tokensOfAll, hd]

/-- The first token of a declaration, or the last of a block. -/
theorem HasRead.begin (hm : s.mode = .ready) (hf : s.faults = [])
    (hb : BodyReads s.body s.outer ds w) (hf' : (s.feed t).faults = []) :
    (s.feed t).HasRead (w ++ Declaration.tokensOfAll ds ++ [] ++ [t]) := by
  have hready : s.accept t = s.begin t := by rw [accept, hm]
  rcases begin_cases s t with
    ⟨hk, he⟩ | ⟨hk, he⟩ | ⟨hk, he⟩ | ⟨hk, body, outer, ho, he⟩ | he
  · exact .of_mode hf hb (hready.trans he) (.name ⟨t, hk⟩)
  · refine .of_mode hf hb (hready.trans he) ?_
    exact ModeReads.operand (w := []) (.print ⟨t, hk⟩) .nil Goal.allows_nil
  · rw [feed_of_accept (hready.trans he)]
    refine ⟨hf, w ++ Declaration.tokensOfAll ds ++ [t], [], [], ⟨?_, rfl, trivial, trivial⟩,
      .ready, ?_⟩
    · rw [hb.body_eq]
      exact hb.outer.cons ds hb.guarded hb.assignNames ⟨t, hk⟩
    · simp [Declaration.tokensOfAll]
  · obtain ⟨houter, hbody, hguarded, hnames⟩ := hb
    rw [ho] at houter
    cases houter with
    | @cons _ w₀ houter ds₀ hg ha opening =>
      have hb₀ : BodyReads (Declaration.statementsOfAll ds₀).reverse outer ds₀ w₀ :=
        ⟨houter, rfl, hg, ha⟩
      have hb' := hb₀.append (d := .block opening ds ⟨t, hk⟩) hguarded hnames
      rw [feed_of_accept (hready.trans he), hbody, List.reverse_reverse]
      refine ⟨hf, w₀, ds₀ ++ [Declaration.block opening ds ⟨t, hk⟩], [], hb', .ready, ?_⟩
      simp [Declaration.tokensOfAll_append, Declaration.tokensOfAll, Declaration.tokens]
  · have hfault : (s.acceptOperand .effect [] t).faults = [] := by
      rw [feed, hready, he] at hf'
      exact hf'
    obtain ⟨mode, he', hmode⟩ :=
      ModeReads.acceptOperand (w := []) .effect .nil Goal.allows_nil hfault
    exact .of_mode hf hb ((hready.trans he).trans he') hmode

theorem HasRead.feed {tokens : List Token} (h : s.HasRead tokens) (hf' : (s.feed t).faults = []) :
    (s.feed t).HasRead (tokens ++ [t]) := by
  obtain ⟨hf, w, ds, v, hb, hm, rfl⟩ := h
  obtain ⟨mode, hmode⟩ : ∃ mode, s.mode = mode := ⟨_, rfl⟩
  rw [hmode] at hm
  cases hm with
  | ready => exact .begin hmode hf hb hf'
  | name keyword =>
    by_cases hk : t.kind = .identifier
    · have he : s.accept t = { s with mode := .afterName t } := by simp only [accept, hmode, if_pos hk]
      exact .of_mode hf hb he (.afterName keyword ⟨t, hk⟩)
    · simp [ParseState.feed, accept, hmode, hk, fail] at hf'
  | afterName keyword name =>
    by_cases hq : t.kind = .equal
    · have he : s.accept t = { s with mode := .operand (.initializer name.1) [] } := by
        simp only [accept, hmode, hq]
      refine .of_mode hf hb he ?_
      exact ModeReads.operand (w := []) (.initializer keyword name ⟨t, hq⟩) .nil Goal.allows_nil
    by_cases hk : t.kind = .semicolon
    · have he : s.accept t = s.emit (Declaration.declare keyword name ⟨t, hk⟩).statement := by
        simp only [accept, hmode, hk]
        rfl
      exact .of_declaration hf hb he rfl trivial trivial
    · have he : s.accept t = s.fail t .expectSemicolonAfterDeclaration := by
        simp only [accept, hmode]
      rw [ParseState.feed, he] at hf'
      cases hf'
  | @operand goal v stack w' hv hs hg =>
    have he : s.accept t = s.acceptOperand goal stack t := by rw [accept, hmode]
    have hfault : (s.acceptOperand goal stack t).faults = [] := by
      rw [← he]
      exact hf'
    obtain ⟨mode, he', hmode'⟩ := ModeReads.acceptOperand hv hs hg hfault
    exact .of_mode hf hb (he.trans he') (by rwa [List.append_assoc])
  | @operator goal v stack w' hv hs p hp ha hg =>
    have he : s.accept t = s.acceptOperator goal stack p.tree t := by rw [accept, hmode]
    have hfault : (s.acceptOperator goal stack p.tree t).faults = [] := by
      rw [← he]
      exact hf'
    rcases ModeReads.acceptOperator hv hs hp ha hg hf hfault with ⟨mode, he', hmode'⟩ | ⟨d, he', hd⟩
    · exact .of_mode hf hb (he.trans he') (by rwa [List.append_assoc])
    · exact .of_declaration hf hb (he.trans he') (by simp [hd.1]) hd.2.1 hd.2.2

end Feed

/-! ### Runs -/

/-- A step that records no fault. -/
theorem faults_of_eq {s r r' : ParseState} (h : r = r') (hr : r'.faults = s.faults) :
    s.faults <:+ r.faults := by
  subst h
  exact ⟨[], hr.symm⟩

theorem faults_acceptOperand (s : ParseState) (goal : Goal) (stack : List Frame) (t : Token) :
    s.faults <:+ (s.acceptOperand goal stack t).faults := by
  rcases acceptOperand_cases s goal stack t with
    ⟨_, _, he⟩ | ⟨_, _, he⟩ | ⟨_, he⟩ | ⟨_, _, _, he⟩ | ⟨_, he⟩ | he
  · exact faults_of_eq he rfl
  · exact faults_of_eq he rfl
  · exact faults_of_eq he rfl
  · exact faults_of_eq he rfl
  · rw [he]
    exact List.suffix_cons _ _
  · rw [he]
    exact List.suffix_cons _ _

theorem faults_acceptOperator (s : ParseState) (goal : Goal) (stack : List Frame) (e : Expr)
    (t : Token) : s.faults <:+ (s.acceptOperator goal stack e t).faults := by
  obtain ⟨found, -, hfound⟩ := settle_faults stack e s.faults
  have hs : s.faults <:+ (settle stack e s.faults).2.2 := ⟨found, hfound.symm⟩
  rcases acceptOperator_cases s goal stack e t with
    ⟨op, hop⟩ | hk | ⟨hk, rest, hrest⟩ | ⟨hk, hn⟩ | ⟨c, -, he⟩
  · exact faults_of_eq (acceptOperator_binary hop) rfl
  · exact faults_of_eq (acceptOperator_equal hk) rfl
  · obtain ⟨⟨stack', e', faults⟩, hset⟩ : ∃ r, settle stack e s.faults = r := ⟨_, rfl⟩
    rw [hset] at hrest hs
    obtain rfl : stack' = .paren :: rest := hrest
    rw [acceptOperator_rightParen hk hset]
    exact hs
  · rw [acceptOperator_semicolon hk rfl hn]
    exact hs
  · rw [he]
    exact hs.trans (List.suffix_cons _ _)

theorem faults_begin (s : ParseState) (t : Token) : s.faults <:+ (s.begin t).faults := by
  rcases begin_cases s t with ⟨_, he⟩ | ⟨_, he⟩ | ⟨_, he⟩ | ⟨_, _, _, _, he⟩ | he
  case inr.inr.inr.inr =>
    rw [he]
    exact faults_acceptOperand s .effect [] t
  all_goals exact faults_of_eq he rfl

/-- What was found stays found. -/
theorem faults_accept (s : ParseState) (t : Token) : s.faults <:+ (s.accept t).faults := by
  unfold accept
  split
  · exact faults_begin s t
  · split
    · exact List.suffix_rfl
    · exact List.suffix_cons _ _
  · split
    · exact List.suffix_rfl
    · exact List.suffix_rfl
    · exact List.suffix_cons _ _
  · exact faults_acceptOperand s _ _ t
  · exact faults_acceptOperator s _ _ _ t
  · split
    · exact faults_begin s t
    · exact List.suffix_rfl
  · exact List.suffix_rfl

theorem faults_foldl_feed (tokens : List Token) (s : ParseState) :
    s.faults <:+ (tokens.foldl feed s).faults := by
  induction tokens generalizing s with
  | nil => exact List.suffix_rfl
  | cons t rest ih => exact (faults_accept s t).trans (ih (s.feed t))

theorem faults_of_faultsAtEnd {s : ParseState} {eof : Token} (h : s.faultsAtEnd eof = []) :
    s.faults = [] := by
  unfold faultsAtEnd at h
  have hle := faults_accept s eof
  cases hm : s.mode <;> simp_all

theorem HasRead.foldl_feed {s : ParseState} {read : List Token} (h : s.HasRead read)
    (tokens : List Token) (hf : (tokens.foldl ParseState.feed s).faults = []) :
    (tokens.foldl ParseState.feed s).HasRead (read ++ tokens) := by
  induction tokens generalizing s read with
  | nil => simpa using h
  | cons t rest ih =>
    have hstep : (s.feed t).faults = [] := by
      have hle := faults_foldl_feed rest (s.feed t)
      rw [List.foldl_cons] at hf
      rw [hf] at hle
      exact List.suffix_nil.1 hle
    have hr := ih (h.feed hstep) hf
    rwa [List.append_assoc] at hr

theorem hasRead_initial : ({} : ParseState).HasRead [] :=
  ⟨rfl, [], [], [], ⟨.nil, rfl, trivial, trivial⟩, .ready, rfl⟩

/-- An expression cannot end with the input. -/
theorem accept_eof_faults {s : ParseState} {tokens : List Token} {eof : Token} (h : s.HasRead tokens)
    (he : eof.kind = .eof) (hm : s.mode ≠ .ready) : (s.accept eof).faults ≠ [] := by
  intro hf
  obtain ⟨-, w, ds, v, -, hmode, -⟩ := h
  unfold accept at hf
  cases hv : s.mode with
  | ready => exact hm hv
  | skipping | skippingNext =>
    rw [hv] at hmode
    cases hmode
  | name => simp [hv, he, fail] at hf
  | afterName name => simp [hv, he, fail] at hf
  | operand goal stack =>
    rw [hv] at hf
    dsimp only at hf
    rw [acceptOperand_other (by simp [Token.constant?, he]) (by simp [he]) (by simp [he])
      (by simp [UnaryOp.ofKind?, he])] at hf
    cases hf
  | operator goal stack e =>
    rw [hv] at hf
    rcases acceptOperator_cases s goal stack e eof with
      ⟨op, hop⟩ | hk | ⟨hk, _⟩ | ⟨hk, _⟩ | ⟨c, -, hfail⟩
    · simp [BinaryOp.ofKind?, he] at hop
    · cases he.symm.trans hk
    · cases he.symm.trans hk
    · cases he.symm.trans hk
    · dsimp only at hf
      rw [hfail] at hf
      cases hf

/-- A state in which the input may end has read a whole program. -/
theorem HasRead.of_faultsAtEnd {s : ParseState} {tokens : List Token} {eof : Token}
    (h : s.HasRead tokens) (he : eof.kind = .eof) (hf : s.faultsAtEnd eof = []) :
    ∃ ds, Declaration.tokensOfAll ds = tokens ∧ Declaration.statementsOfAll ds = s.statements ∧
      Declaration.GuardedAll ds ∧ Declaration.AllAssignNames ds := by
  unfold faultsAtEnd at hf
  simp only [List.append_eq_nil_iff, List.map_eq_nil_iff, List.reverse_eq_nil_iff] at hf
  obtain ⟨hf, houter⟩ := hf
  have hready : s.mode = .ready := by
    refine Classical.byContradiction fun hm => accept_eof_faults h he hm ?_
    obtain ⟨-, w, ds, v, -, hmode, -⟩ := h
    cases hv : s.mode with
    | ready => exact absurd hv hm
    | skipping | skippingNext =>
      rw [hv] at hmode
      cases hmode
    | name | afterName | operand | operator =>
      rw [hv] at hf
      exact hf
  obtain ⟨-, w, ds, v, hb, hm, rfl⟩ := h
  rw [hready] at hm
  cases hm
  have hw := hb.outer
  rw [houter] at hw
  cases hw
  refine ⟨ds, by simp, ?_, hb.guarded, hb.assignNames⟩
  simp [statements, houter, hb.body_eq]

end ParseState
end BlockScript
