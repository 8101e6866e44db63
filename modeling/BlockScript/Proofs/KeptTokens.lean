import BlockScript.Proofs.FreshStarts
import BlockScript.Proofs.InvalidTargets
import BlockScript.Proofs.Recovery

/-!
# What is kept of tokens with errors

If the tokens of all declarations that were given up are left out, and with them all assignments to something
other than a name but for their left sides, then a program without errors remains (`Keeps`). Its statements
are those that were read. So every tree is derived from tokens of the input, in their order.
-/
namespace BlockScript
namespace Grammar

/-! ### Tokens and names -/

mutual

/-- Pruning leaves tokens out and changes nothing else. -/
theorem Phrase.tokens_prune_sublist : {c : Category} → (p : Phrase c) → p.prune.tokens.Sublist p.tokens
  | _, .constant _ _ _ | _, .name _ => .refl _
  | _, .paren opening inner closing =>
    (inner.tokens_prune_sublist.append_right [closing.1]).cons_cons opening.1
  | _, .plain operand => operand.tokens_prune_sublist
  | _, .signed t _ _ operand => operand.tokens_prune_sublist.cons_cons t
  | _, .chain first links => first.tokens_prune_sublist.append links.tokens_prune_sublist
  | _, .value e => e.tokens_prune_sublist
  | _, .assign target equals value => by
    rw [Phrase.prune]
    split
    · exact (value.tokens_prune_sublist.cons_cons equals.1).append_left target.tokens
    · exact target.tokens_prune_sublist.trans (List.sublist_append_left _ _)

theorem Links.tokens_prune_sublist : {height : Nat} → (links : Links height) →
    links.prune.tokens.Sublist links.tokens
  | _, .nil => .refl _
  | _, .cons t _ _ _ right rest =>
    (right.tokens_prune_sublist.append rest.tokens_prune_sublist).cons_cons t

end

/-- The tokens that are identifiers. -/
def identifiers (tokens : List Token) : List Token := tokens.filter fun t => t.kind = .identifier

@[simp] theorem identifiers_append (tokens tokens' : List Token) :
    identifiers (tokens ++ tokens') = identifiers tokens ++ identifiers tokens' :=
  List.filter_append ..

theorem identifiers_sublist {tokens tokens' : List Token} (h : tokens.Sublist tokens') :
    (identifiers tokens).Sublist (identifiers tokens') :=
  h.filter _

@[simp] theorem identifiers_name (name : Terminal .identifier) : identifiers [name.1] = [name.1] := by
  simp [identifiers, name.2]

theorem names_assignment_sublist (target value : Expr) :
    (assignment target value).names.Sublist (target.names ++ value.names) := by
  unfold assignment
  split
  · exact .refl _
  · exact List.sublist_append_left _ _

mutual

/-- The names in a tree are identifiers that it is derived from, in their order. -/
theorem Phrase.names_tree_sublist : {c : Category} → (p : Phrase c) →
    p.tree.names.Sublist (identifiers p.tokens)
  | _, .constant _ _ _ => List.nil_sublist _
  | _, .name t => by
    rw [Phrase.tokens, identifiers_name]
    exact .refl _
  | _, .paren _ inner _ =>
    inner.names_tree_sublist.trans (identifiers_sublist ((List.sublist_append_left _ _).cons _))
  | _, .plain operand => operand.names_tree_sublist
  | _, .signed _ _ _ operand =>
    operand.names_tree_sublist.trans (identifiers_sublist (List.sublist_cons_self _ _))
  | _, .chain first links => by
    rw [Phrase.tokens, identifiers_append]
    exact (links.names_tree_sublist first.tree).trans (first.names_tree_sublist.append_right _)
  | _, .value e => e.names_tree_sublist
  | _, .assign target equals value => by
    have hvalue := value.names_tree_sublist.trans (identifiers_sublist (List.sublist_cons_self equals.1 _))
    rw [Phrase.tokens, identifiers_append]
    exact (names_assignment_sublist _ _).trans (target.names_tree_sublist.append hvalue)

theorem Links.names_tree_sublist : {height : Nat} → (links : Links height) → (left : Expr) →
    (links.tree left).names.Sublist (left.names ++ identifiers links.tokens)
  | _, .nil, left => List.sublist_append_left _ _
  | _, .cons t op _ _ right rest, left => by
    have hrest := rest.names_tree_sublist (.binary left op t.line right.tree)
    have hright : (right.tree.names ++ identifiers rest.tokens).Sublist
        (identifiers (t :: (right.tokens ++ rest.tokens))) := by
      refine List.Sublist.trans ?_ (identifiers_sublist (List.sublist_cons_self t _))
      rw [identifiers_append]
      exact right.names_tree_sublist.append_right _
    rw [Expr.names, List.append_assoc] at hrest
    exact hrest.trans (hright.append_left _)

end

namespace Declaration

mutual

theorem names_statement_sublist : (d : Declaration) → d.statement.names.Sublist (identifiers d.tokens)
  | .declare keyword name semicolon => by
    have hname : [name.1].Sublist [keyword.1, name.1, semicolon.1] :=
      ((List.nil_sublist [semicolon.1]).cons_cons name.1).cons keyword.1
    have h := identifiers_sublist hname
    rwa [identifiers_name] at h
  | .define keyword name equals value semicolon => by
    have hvalue : value.tokens.Sublist (equals.1 :: (value.tokens ++ [semicolon.1])) :=
      (List.sublist_append_left _ _).cons _
    have hnamed : ([name.1] ++ value.tokens).Sublist (define keyword name equals value semicolon).tokens :=
      (hvalue.cons_cons name.1).cons keyword.1
    have h := identifiers_sublist hnamed
    rw [identifiers_append, identifiers_name] at h
    exact (value.names_tree_sublist.append_left [name.1]).trans h
  | .print _ value _ =>
    value.names_tree_sublist.trans (identifiers_sublist ((List.sublist_append_left _ _).cons _))
  | .block _ body _ =>
    (names_statementsOfAll_sublist body).trans (identifiers_sublist ((List.sublist_append_left _ _).cons _))
  | .effect value _ => value.names_tree_sublist.trans (identifiers_sublist (List.sublist_append_left _ _))

theorem names_statementsOfAll_sublist : (ds : List Declaration) →
    (Stmt.namesOfAll (statementsOfAll ds)).Sublist (identifiers (tokensOfAll ds))
  | [] => List.nil_sublist _
  | d :: rest => by
    rw [tokensOfAll, identifiers_append]
    exact d.names_statement_sublist.append (names_statementsOfAll_sublist rest)

end

end Declaration
end Grammar

open Grammar
namespace ParseState

/-! ### Settled expressions -/

section Settled
variable {stack : List Frame} {w : List Token}

/-- Settling frames makes one expression of all tokens behind the innermost open parenthesis, whatever is
assigned to. -/
theorem StackReads.exists_settled_expression (h : StackReads stack w) :
    ∀ (e : Phrase .expression) (faults : List Fault), Admits 4 stack →
    ∃ stack' w' found, ∃ q : Phrase .expression, settle stack e.tree faults = (stack', q.tree, found) ∧
      StackReads stack' w' ∧ (stack' = [] ∨ ∃ rest, stack' = .paren :: rest) ∧
      w' ++ q.tokens = w ++ e.tokens := by
  induction h with
  | nil => exact fun e faults _ => ⟨[], [], faults, e, rfl, .nil, .inl rfl, rfl⟩
  | @paren stack w h opening _ =>
    exact fun e faults _ => ⟨_, _, faults, e, rfl, h.paren opening, .inr ⟨stack, rfl⟩, rfl⟩
  | unary h hop hn _ => exact fun _ _ ha => absurd ha id
  | @binary stack w h k left hleft t op hop hl ha _ =>
    intro e _ hadm
    have hlt : op.level + 4 < 4 := hadm
    omega
  | @assign stack w h target position equals ha ih =>
    intro e faults _
    obtain ⟨stack', w', found, q, hs, hstack, htop, hw⟩ := ih (.assign target equals e)
      ((targetFaults target.tree position equals.1).reverse ++ faults) ha
    refine ⟨stack', w', found, q, ?_, hstack, htop, ?_⟩
    · rw [settle_assign]
      exact hs
    · rw [hw, Phrase.tokens]
      simp

theorem StackReads.exists_settled (h : StackReads stack w) {p : Phrase (.chain 0)} (hp : p.AssignsNames)
    (ha : Admits 0 stack) (faults : List Fault) :
    ∃ stack' w' found, ∃ q : Phrase .expression, settle stack p.tree faults = (stack', q.tree, found) ∧
      StackReads stack' w' ∧ (stack' = [] ∨ ∃ rest, stack' = .paren :: rest) ∧
      w' ++ q.tokens = w ++ p.tokens := by
  have htop : 0 + 4 = 4 := rfl
  obtain ⟨stack', w', e, hr, hs, ha', hw, -⟩ := h.reduces htop hp ha (Nat.zero_le 4)
  obtain ⟨stack'', w'', found, q, hset, hs', htop', hw'⟩ := hs.exists_settled_expression (.value e) faults ha'
  refine ⟨stack'', w'', found, q, ?_, hs', htop', hw'.trans hw⟩
  rw [← settle_reduce 0, hr]
  exact hset

end Settled

theorem Goal.Allows.sublist {goal : Goal} {tokens tokens' : List Token} (h : goal.Allows tokens')
    (hsub : tokens.Sublist tokens') : goal.Allows tokens :=
  fun t ht => h t (hsub.subset ht)

/-! ### States without their faults -/

/-- The state without its faults, ready for a declaration if one has been given up. -/
def cleared (s : ParseState) : ParseState :=
  { s with mode := if s.mode.isSkipping then .ready else s.mode, faults := [] }

/-- Whether the tokens that are kept are those of the state without its faults. -/
def Keeps (s : ParseState) (kept : List Token) : Prop := s.cleared.HasRead kept

/-- The declaration that was being read is given up with the next token. -/
structure GaveUp (s s' : ParseState) : Prop where
  body : s'.body = s.body
  outer : s'.outer = s.outer
  mode : s'.cleared.mode = .ready

section Cleared
variable {s : ParseState} {t : Token}

theorem Frame.later_zero (f : Frame) : f.later 0 = f := by
  cases f <;> simp [Frame.later]

theorem Mode.later_zero (mode : Mode) : mode.later 0 = mode := by
  have hframe : Frame.later 0 = id := funext Frame.later_zero
  cases mode <;> simp [Mode.later, hframe]

/-- The faults of a state under those that were found before. -/
theorem after_faults (s : ParseState) (faults : List Fault) :
    s.after { faults } = { s with faults := s.faults ++ faults } := by
  have hlater : Fault.later 0 = id := funext fun f => by simp [Fault.later]
  simp [after, onTop_nil, Mode.later_zero, hlater]

/-- A token that is not thrown away is taken as if nothing had been at fault before. -/
theorem accept_cleared (h : s.discards t = false) :
    s.accept t = { s.cleared.accept t with faults := (s.cleared.accept t).faults ++ s.faults } := by
  have hready : s.accept t = ({ s with mode := s.cleared.mode } : ParseState).accept t := by
    cases hm : s.mode with
    | skipping =>
      have hk : t.kind.beginsStatement = true := by simpa [discards, hm] using h
      have hcleared : s.cleared.mode = .ready := by simp [cleared, hm, Mode.isSkipping]
      rw [hcleared, accept_of_startsDeclaration (.inr ⟨hm, hk⟩), ← begin_ready]
      rfl
    | skippingNext => simp [discards, hm] at h
    | ready | name | afterName | operand | operator =>
      have hcleared : s.cleared.mode = s.mode := by simp [cleared, hm, Mode.isSkipping]
      rw [hcleared]
  have hunder : ({ s with mode := s.cleared.mode } : ParseState) = s.cleared.after { faults := s.faults } := by
    rw [after_faults]
    rfl
  rw [hready, hunder, accept_after, after_faults]

theorem mode_cleared_of_discards (h : s.discards t = true) : s.cleared.mode = .ready := by
  unfold discards at h
  unfold cleared
  cases hm : s.mode <;> simp_all [Mode.isSkipping]

theorem mode_cleared_of_ready_or_skipping (h : s.mode = if t.kind = .semicolon then .ready else .skipping) :
    s.cleared.mode = .ready := by
  rw [cleared, h]
  split <;> rfl

/-- What a token can do but for closing a parenthesis or ending a declaration after an operand. -/
theorem accept_cases (s : ParseState) (t : Token) :
    (s.accept t).faults = s.faults ∨ GaveUp s (s.accept t) ∨
      ∃ goal stack e, s.mode = .operator goal stack e ∧
        (t.kind = .rightParen ∧ (∃ rest, (settle stack e s.faults).1 = .paren :: rest) ∨
          t.kind = .semicolon ∧ ∀ rest, (settle stack e s.faults).1 ≠ .paren :: rest) := by
  have hfail (faults : List Fault) (c : Complaint) : GaveUp s ({ s with faults }.fail t c) :=
    ⟨rfl, rfl, mode_cleared_of_ready_or_skipping (t := t) rfl⟩
  have hoperand (goal : Goal) (stack : List Frame) : (s.acceptOperand goal stack t).faults = s.faults ∨
      GaveUp s (s.acceptOperand goal stack t) := by
    rcases acceptOperand_cases s goal stack t with
      ⟨v, -, he⟩ | ⟨-, -, he⟩ | ⟨-, he⟩ | ⟨op, -, -, he⟩ | ⟨-, he⟩ | he <;> rw [he]
    · exact .inl rfl
    · exact .inl rfl
    · exact .inl rfl
    · exact .inl rfl
    · exact .inr ⟨rfl, rfl, rfl⟩
    · exact .inr (hfail s.faults _)
  have hbegin : (s.begin t).faults = s.faults ∨ GaveUp s (s.begin t) := by
    rcases begin_cases s t with ⟨-, he⟩ | ⟨-, he⟩ | ⟨-, he⟩ | ⟨-, body, outer, -, he⟩ | he <;> rw [he]
    · exact .inl rfl
    · exact .inl rfl
    · exact .inl rfl
    · exact .inl rfl
    · exact hoperand .effect []
  unfold accept
  cases hm : s.mode with
  | ready => exact hbegin.imp_right .inl
  | name =>
    dsimp only
    split
    · exact .inl rfl
    · exact .inr (.inl (hfail s.faults _))
  | afterName name =>
    dsimp only
    split
    · exact .inl rfl
    · exact .inl rfl
    · exact .inr (.inl (hfail s.faults _))
  | operand goal stack => exact (hoperand goal stack).imp_right .inl
  | operator goal stack e =>
    dsimp only
    rcases acceptOperator_cases s goal stack e t with ⟨op, hop⟩ | hk | hclose | hend | ⟨c, -, he⟩
    · left
      rw [acceptOperator_binary hop]
    · left
      rw [acceptOperator_equal hk]
    · exact .inr (.inr ⟨goal, stack, e, rfl, .inl hclose⟩)
    · exact .inr (.inr ⟨goal, stack, e, rfl, .inr hend⟩)
    · rw [he]
      exact .inr (.inl (hfail _ c))
  | skipping =>
    dsimp only
    split
    · exact hbegin.imp_right .inl
    · exact .inl rfl
  | skippingNext => exact .inl rfl

end Cleared

/-! ### Steps -/

theorem ModeReads.isSkipping_eq_false {mode : Mode} {v : List Token} (h : ModeReads mode v) :
    mode.isSkipping = false := by
  cases h <;> rfl

section Keeps
variable {s s' : ParseState} {ds : List Declaration} {w v kept : List Token} {t : Token}

theorem keeps_of_reads (hb : BodyReads s.body s.outer ds w) (hm : ModeReads s.mode v) :
    s.Keeps (w ++ Declaration.tokensOfAll ds ++ v) := by
  refine ⟨rfl, w, ds, v, hb, ?_, rfl⟩
  rw [cleared, hm.isSkipping_eq_false]
  exact hm

theorem Keeps.congr (h : s.Keeps kept) (hbody : s'.body = s.body) (houter : s'.outer = s.outer)
    (hmode : s'.cleared.mode = s.cleared.mode) : s'.Keeps kept := by
  obtain ⟨-, w, ds, v, hb, hm, rfl⟩ := h
  refine ⟨rfl, w, ds, v, ?_, hmode ▸ hm, rfl⟩
  change BodyReads s'.body s'.outer ds w
  rw [hbody, houter]
  exact hb

/-- Nothing is kept of a declaration that is given up. -/
theorem GaveUp.keeps (h : GaveUp s s') (hb : BodyReads s.body s.outer ds w) :
    s'.Keeps (w ++ Declaration.tokensOfAll ds) := by
  refine ⟨rfl, w, ds, [], ?_, ?_, (List.append_nil _).symm⟩
  · change BodyReads s'.body s'.outer ds w
    rw [h.body, h.outer]
    exact hb
  · rw [h.mode]
    exact .ready

section Closing
variable {goal : Goal} {stack : List Frame} {p : Phrase (.chain 0)} {outside : List Token}
  (hb : BodyReads s.body s.outer ds outside) (hv : GoalReads goal v) (hs : StackReads stack w)
  (hp : p.AssignsNames) (ha : Admits 0 stack) (hg : goal.Allows (w ++ p.tokens))
include hb hv hs hp ha hg

/-- A parenthesis that is closed keeps its expression but for the right sides of faulty assignments. -/
theorem exists_keeps_of_rightParen (hk : t.kind = .rightParen)
    (hparen : ∃ rest, (settle stack p.tree s.faults).1 = .paren :: rest) :
    ∃ kept, kept.Sublist (outside ++ Declaration.tokensOfAll ds ++ (v ++ (w ++ p.tokens)) ++ [t]) ∧
      (s.acceptOperator goal stack p.tree t).Keeps kept := by
  obtain ⟨rest, hrest⟩ := hparen
  obtain ⟨stack', w', found, q, hset, hs', -, hw⟩ := hs.exists_settled hp ha s.faults
  obtain rfl : stack' = .paren :: rest := by rw [← hrest, hset]
  rw [acceptOperator_rightParen hk hset]
  cases hs' with
  | @paren _ before hs' opening =>
    let r : Phrase .primary := .paren opening q.prune ⟨t, hk⟩
    have hr : r.tree = .grouping q.tree := congrArg Expr.grouping q.tree_prune
    have htokens : (before ++ r.tokens).Sublist (w ++ p.tokens ++ [t]) := by
      have hq := ((q.tokens_prune_sublist.append_right [t]).cons_cons opening.1).append_left before
      rw [← hw]
      simpa [r, Phrase.tokens] using hq
    have hallows : goal.Allows (w ++ p.tokens ++ [t]) := by simp [Goal.allows_append.1 hg, hk]
    have hmode := ModeReads.deliver hv hs' (p := r) q.assignsNames_prune (hallows.sublist htokens)
    rw [hr] at hmode
    refine ⟨_, ?_, keeps_of_reads hb hmode⟩
    rw [List.append_assoc _ _ [t], List.append_assoc v]
    exact (htokens.append_left v).append_left _

/-- A declaration that ends is kept in the same way. -/
theorem exists_keeps_of_semicolon (hk : t.kind = .semicolon)
    (hn : ∀ rest, (settle stack p.tree s.faults).1 ≠ .paren :: rest) :
    ∃ kept, kept.Sublist (outside ++ Declaration.tokensOfAll ds ++ (v ++ (w ++ p.tokens)) ++ [t]) ∧
      (s.acceptOperator goal stack p.tree t).Keeps kept := by
  obtain ⟨stack', w', found, q, hset, hs', htop, hw⟩ := hs.exists_settled hp ha s.faults
  rw [hset] at hn
  rcases htop with rfl | ⟨rest, rfl⟩
  · cases hs'
    rw [List.nil_append] at hw
    have htokens : q.prune.tokens.Sublist (w ++ p.tokens) := hw ▸ q.tokens_prune_sublist
    obtain ⟨d, hd, hstatement, hguard, hnames⟩ :=
      hv.exists_declaration q.assignsNames_prune (hg.sublist htokens) ⟨t, hk⟩
    rw [q.tree_prune] at hstatement
    rw [acceptOperator_semicolon hk hset hn, ← hstatement]
    refine ⟨_, ?_, keeps_of_reads (hb.append hguard hnames) .ready⟩
    rw [Declaration.tokensOfAll_append, Declaration.tokensOfAll, Declaration.tokensOfAll, hd]
    simpa using htokens.append_right [t]
  · exact absurd rfl (hn rest)

end Closing

theorem HasRead.exists_keeps_feed (h : s.HasRead kept) (t : Token) :
    ∃ kept', kept'.Sublist (kept ++ [t]) ∧ (s.feed t).Keeps kept' := by
  by_cases hf : (s.accept t).faults = []
  · obtain ⟨-, w, ds, v, hb, hm, htokens⟩ := h.feed hf
    exact ⟨_, .refl _, htokens ▸ keeps_of_reads hb hm⟩
  obtain ⟨hnone, w, ds, v, hb, hm, rfl⟩ := h
  rcases accept_cases s t with hsame | hgave | ⟨goal, stack, e, hmode, hclose⟩
  · exact absurd (hsame.trans hnone) hf
  · refine ⟨_, ?_, hgave.keeps hb⟩
    exact (List.sublist_append_left _ v).trans (List.sublist_append_left _ [t])
  · rw [hmode] at hm
    cases hm with
    | @operator goal v stack w' hv hs p hp ha hg =>
      change ∃ kept', _ ∧ (s.accept t).Keeps kept'
      rw [accept, hmode]
      rcases hclose with ⟨hk, hparen⟩ | ⟨hk, hn⟩
      · exact exists_keeps_of_rightParen hb hv hs hp ha hg hk hparen
      · exact exists_keeps_of_semicolon hb hv hs hp ha hg hk hn

/-- A token is kept, or left out with others. -/
theorem Keeps.exists_feed (h : s.Keeps kept) (t : Token) :
    ∃ kept', kept'.Sublist (kept ++ [t]) ∧ (s.feed t).Keeps kept' := by
  cases hd : s.discards t with
  | true =>
    refine ⟨kept, List.sublist_append_left _ _, h.congr ?_ ?_ ?_⟩ <;> rw [feed_of_discards hd]
    · rfl
    · rfl
    · exact (mode_cleared_of_ready_or_skipping (t := t) rfl).trans (mode_cleared_of_discards hd).symm
  | false =>
    obtain ⟨kept', hsub, hk⟩ := HasRead.exists_keeps_feed h t
    refine ⟨kept', hsub, hk.congr ?_ ?_ ?_⟩ <;> rw [feed_of_accept (accept_cleared hd)] <;> rfl

theorem Keeps.exists_foldl_feed (h : s.Keeps kept) (tokens : List Token) :
    ∃ kept', kept'.Sublist (kept ++ tokens) ∧ (tokens.foldl feed s).Keeps kept' := by
  induction tokens generalizing s kept with
  | nil => exact ⟨kept, List.sublist_append_left _ _, h⟩
  | cons t rest ih =>
    obtain ⟨kept', hsub, hk⟩ := h.exists_feed t
    obtain ⟨kept'', hsub', hk'⟩ := ih hk
    refine ⟨kept'', hsub'.trans ?_, hk'⟩
    rw [List.append_cons]
    exact hsub.append_right rest

/-! ### Statements -/

/-- The statements of the outermost block are derived from the tokens before its first brace that is open. -/
theorem OuterReads.exists_outermost {outer : List (List Stmt)} (h : OuterReads outer w) {body : List Stmt}
    (hlast : outer.getLast? = some body) :
    ∃ ds, (Declaration.tokensOfAll ds).Sublist w ∧ Declaration.GuardedAll ds ∧ Declaration.AllAssignNames ds ∧
      Declaration.statementsOfAll ds = body.reverse := by
  induction h with
  | nil => cases hlast
  | @cons outer w h ds hg ha opening ih =>
    cases h with
    | nil =>
      obtain rfl : _ = body := Option.some.inj hlast
      exact ⟨ds, List.sublist_append_left _ _, hg, ha, (List.reverse_reverse _).symm⟩
    | cons h ds' hg' ha' opening' =>
      rw [List.getLast?_cons_cons] at hlast
      obtain ⟨ds₀, hsub, hg₀, ha₀, hs⟩ := ih hlast
      refine ⟨ds₀, hsub.trans ?_, hg₀, ha₀, hs⟩
      exact (List.sublist_append_left _ (Declaration.tokensOfAll ds)).trans (List.sublist_append_left _ _)

theorem Keeps.exists_derivation (h : s.Keeps kept) :
    ∃ ds, (Declaration.tokensOfAll ds).Sublist kept ∧ Declaration.GuardedAll ds ∧
      Declaration.AllAssignNames ds ∧ Declaration.statementsOfAll ds = s.statements := by
  obtain ⟨-, w, ds, v, hb, -, rfl⟩ := h
  rw [List.append_assoc, statements]
  cases hlast : s.outer.getLast? with
  | some body =>
    obtain ⟨ds₀, hsub, hg, ha, hs⟩ := hb.outer.exists_outermost hlast
    exact ⟨ds₀, hsub.trans (List.sublist_append_left _ _), hg, ha, hs⟩
  | none =>
    have hbody : s.body = (Declaration.statementsOfAll ds).reverse := hb.body_eq
    refine ⟨ds, ?_, hb.guarded, hb.assignNames, ?_⟩
    · exact (List.sublist_append_left _ v).trans (List.sublist_append_right w _)
    · rw [Option.getD_none, hbody, List.reverse_reverse]

end Keeps
end ParseState

namespace Parsed
open ParseState

/-- The statements that are read, with errors or without, have a derivation from some of the tokens before
the end marker, in their order. -/
theorem exists_derivation_of_statements (tokens : List Token) :
    ∃ ds, (Declaration.tokensOfAll ds).Sublist (input tokens) ∧ Declaration.GuardedAll ds ∧
      Declaration.AllAssignNames ds ∧ Declaration.statementsOfAll ds = (ofTokens tokens).statements := by
  have hinitial : ({} : ParseState).Keeps [] := hasRead_initial
  obtain ⟨kept, hsub, hkeeps⟩ := hinitial.exists_foldl_feed (input tokens)
  obtain ⟨ds, hds, hg, ha, hs⟩ := hkeeps.exists_derivation
  exact ⟨ds, hds.trans hsub, hg, ha, hs⟩

end Parsed
end BlockScript
