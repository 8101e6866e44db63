import BlockScript.Proofs.CorrectPrefix

/-!
# Neighbouring statements

What is read of a list of tokens does not depend on the tokens before it, if these leave neither a
declaration nor a block open. The state is then the same as after the list alone, put on top of the state
before it. Programs without errors leave nothing open, and neither does anything, right or wrong, that
opens no block and ends with a `;`.
-/
namespace BlockScript
open Grammar

/-- The fault in tokens that come after others. -/
def Fault.later (n : Nat) (f : Fault) : Fault := { f with position := n + f.position }

namespace ParseState

def Frame.later (n : Nat) : Frame → Frame
  | .assign target position equals => .assign target (n + position) equals
  | .paren => .paren
  | .unary op line => .unary op line
  | .binary left op line => .binary left op line

def Mode.later (n : Nat) : Mode → Mode
  | .operand goal stack => .operand goal (stack.map (Frame.later n))
  | .operator goal stack e => .operator goal (stack.map (Frame.later n)) e
  | mode => mode

/-- The statements of the innermost block and of those around it, when there are statements before the
outermost of them. -/
def onTop (under : List Stmt) : List Stmt → List (List Stmt) → List Stmt × List (List Stmt)
  | body, [] => (body ++ under, [])
  | body, next :: outer => (body, (onTop under next outer).1 :: (onTop under next outer).2)

/-- The state when its tokens come after those of another. -/
def after (s base : ParseState) : ParseState where
  position := base.position + s.position
  mode := s.mode.later base.position
  body := (onTop base.body s.body s.outer).1
  outer := (onTop base.body s.body s.outer).2
  faults := s.faults.map (Fault.later base.position) ++ base.faults

/-! ### Stacks -/

section Stacks
variable (n : Nat) (stack : List Frame) (e : Expr)

theorem reduce_later (level : Nat) :
    reduce level (stack.map (Frame.later n)) e =
      ((reduce level stack e).1.map (Frame.later n), (reduce level stack e).2) := by
  induction stack generalizing e with
  | nil => rfl
  | cons f stack ih =>
    cases f with
    | binary left op line =>
      rw [List.map_cons, Frame.later, reduce, reduce]
      split
      · exact ih _
      · rfl
    | paren | unary | assign => rfl

theorem settle_later (faults under : List Fault) :
    settle (stack.map (Frame.later n)) e (faults.map (Fault.later n) ++ under) =
      ((settle stack e faults).1.map (Frame.later n), (settle stack e faults).2.1,
        (settle stack e faults).2.2.map (Fault.later n) ++ under) := by
  induction stack generalizing e faults with
  | nil => rfl
  | cons f stack ih =>
    cases f with
    | binary left op line => exact ih _ faults
    | assign target position equals =>
      have hfaults : targetFaults target (n + position) equals =
          (targetFaults target position equals).map (Fault.later n) := by
        cases target <;> rfl
      rw [List.map_cons, Frame.later, settle_assign, settle_assign, ← ih, hfaults, List.map_append,
        List.map_reverse, List.append_assoc]
    | paren | unary => rfl

theorem deliver_later (goal : Goal) :
    deliver goal (stack.map (Frame.later n)) e = (deliver goal stack e).later n := by
  cases stack with
  | nil => rfl
  | cons f stack => cases f <;> rfl

end Stacks

/-! ### Steps -/

section Steps
variable (s base : ParseState)

theorem fail_after (t : Token) (c : Complaint) :
    (s.after base).fail t c = (s.fail t c).after base := by
  simp only [fail, after, List.map_cons, List.cons_append]
  congr 1
  split <;> rfl

theorem skip_after (t : Token) : (s.after base).skip t = (s.skip t).after base := by
  simp only [skip, after]
  congr 1
  split <;> rfl

theorem emit_after (statement : Stmt) : (s.after base).emit statement = (s.emit statement).after base := by
  simp only [emit, after]
  cases s.outer <;> rfl

theorem exists_unary_map_later {n : Nat} {stack : List Frame} :
    (∃ op line rest, stack.map (Frame.later n) = .unary op line :: rest) ↔
      ∃ op line rest, stack = .unary op line :: rest := by
  cases stack with
  | nil => simp
  | cons f stack => cases f <;> simp [Frame.later]

theorem acceptOperand_after (goal : Goal) (stack : List Frame) (t : Token) :
    (s.after base).acceptOperand goal (stack.map (Frame.later base.position)) t =
      (s.acceptOperand goal stack t).after base := by
  refine acceptOperand_rel (R := fun r r' => r = r'.after base) exists_unary_map_later (fun e => ?_) rfl
    (fun _ => rfl) rfl (fail_after s base t .expectExpression)
  rw [deliver_later]
  rfl

theorem acceptOperator_after (goal : Goal) (stack : List Frame) (e : Expr) (t : Token) :
    (s.after base).acceptOperator goal (stack.map (Frame.later base.position)) e t =
      (s.acceptOperator goal stack e t).after base := by
  cases hb : BinaryOp.ofKind? t.kind with
  | some op =>
    rw [acceptOperator_binary hb, acceptOperator_binary hb, reduce_later]
    rfl
  | none =>
    by_cases he : t.kind = .equal
    · rw [acceptOperator_equal he, acceptOperator_equal he, reduce_later]
      rfl
    · have hfaults : (s.after base).faults = s.faults.map (Fault.later base.position) ++ base.faults := rfl
      rw [acceptOperator, acceptOperator, hb, if_neg he, if_neg he, hfaults, settle_later]
      dsimp only
      obtain ⟨stack', e', faults⟩ := settle stack e s.faults
      have hend : (if t.kind = .semicolon then ({ s with faults }.after base).emit (goal.finish e')
            else ({ s with faults }.after base).fail t goal.unfinished) =
          (if t.kind = Token.Kind.semicolon then { s with faults }.emit (goal.finish e')
            else { s with faults }.fail t goal.unfinished).after base := by
        rw [emit_after, fail_after, apply_ite (ParseState.after · base)]
      cases stack' with
      | nil => exact hend
      | cons f rest =>
        cases f with
        | unary | binary | assign => exact hend
        | paren =>
          rw [List.map_cons, Frame.later]
          dsimp only
          by_cases hr : t.kind = .rightParen
          · rw [if_pos hr, if_pos hr, deliver_later]
            rfl
          · rw [if_neg hr, if_neg hr]
            exact fail_after { s with faults } base t .expectClosingParen

theorem onTop_cons (under : List Stmt) (statement : Stmt) (body : List Stmt) (outer : List (List Stmt)) :
    onTop under (statement :: body) outer =
      (statement :: (onTop under body outer).1, (onTop under body outer).2) := by
  cases outer <;> rfl

theorem begin_after (t : Token) : (s.after base).begin t = (s.begin t).after base := by
  have hother : (s.after base).acceptOperand .effect [] t = (s.acceptOperand .effect [] t).after base :=
    acceptOperand_after s base .effect [] t
  unfold begin
  cases hk : t.kind with
  | varKw | printKw | leftBrace => rfl
  | rightBrace =>
    have houter : (s.after base).outer = (onTop base.body s.body s.outer).2 := rfl
    cases ho : s.outer with
    | nil =>
      rw [ho] at houter
      simp only [houter, onTop]
      exact hother
    | cons body outer =>
      rw [ho] at houter
      simp only [houter, onTop]
      simp only [after, onTop_cons, ho, onTop]
      rfl
  | _ => exact hother

theorem accept_after (t : Token) : (s.after base).accept t = (s.accept t).after base := by
  have hmode : (s.after base).mode = s.mode.later base.position := rfl
  rw [accept, accept, hmode]
  cases s.mode with
  | ready => exact begin_after s base t
  | name =>
    dsimp only [Mode.later]
    split
    · rfl
    · exact fail_after s base t .expectName
  | afterName name =>
    dsimp only [Mode.later]
    split
    · rfl
    · exact emit_after s base (.declare name none)
    · exact fail_after s base t .expectSemicolonAfterDeclaration
  | operand goal stack => exact acceptOperand_after s base goal stack t
  | operator goal stack e => exact acceptOperator_after s base goal stack e t
  | skipping =>
    dsimp only [Mode.later]
    split
    · exact begin_after s base t
    · exact skip_after s base t
  | skippingNext => exact skip_after s base t

theorem feed_after (t : Token) : (s.after base).feed t = (s.feed t).after base := by
  rw [feed, accept_after]
  rfl

theorem foldl_feed_after (tokens : List Token) :
    tokens.foldl feed (s.after base) = (tokens.foldl feed s).after base := by
  induction tokens generalizing s with
  | nil => rfl
  | cons t rest ih => rw [List.foldl_cons, List.foldl_cons, feed_after, ih]

end Steps

/-! ### Runs -/

section Runs
variable {s base : ParseState} {t : Token}

theorem after_eq_self (hm : base.mode = .ready) (ho : base.outer = []) :
    ({} : ParseState).after base = base := by
  obtain ⟨position, mode, body, outer, faults⟩ := base
  subst hm ho
  rfl

theorem getLast?_onTop (under body : List Stmt) (outer : List (List Stmt)) :
    ((onTop under body outer).2.getLast?).getD (onTop under body outer).1 =
      (outer.getLast?).getD body ++ under := by
  induction outer generalizing body with
  | nil => rfl
  | cons next outer ih =>
    rw [onTop, List.getLast?_cons, List.getLast?_cons]
    exact ih next

theorem statements_after (s base : ParseState) :
    (s.after base).statements = base.body.reverse ++ s.statements := by
  have hlast : ((s.after base).outer.getLast?).getD (s.after base).body =
      (s.outer.getLast?).getD s.body ++ base.body := getLast?_onTop base.body s.body s.outer
  rw [statements, hlast, List.reverse_append]
  rfl

theorem length_onTop (under body : List Stmt) (outer : List (List Stmt)) :
    (onTop under body outer).2.length = outer.length := by
  induction outer generalizing body with
  | nil => rfl
  | cons next outer ih => exact congrArg Nat.succ (ih next)

theorem faultsAtEnd_after (s base : ParseState) (eof : Token) :
    (s.after base).faultsAtEnd eof =
      base.faults.reverse ++ (s.faultsAtEnd eof).map (Fault.later base.position) := by
  have hfaults (s' : ParseState) : (s'.after base).faults.reverse =
      base.faults.reverse ++ s'.faults.reverse.map (Fault.later base.position) := by
    rw [after, List.reverse_append, ← List.map_reverse]
  have hclosing :
      ((s.after base).outer.map fun _ => Fault.mk (s.after base).position eof .expectClosingBrace) =
        (s.outer.map fun _ => Fault.mk s.position eof .expectClosingBrace).map
          (Fault.later base.position) := by
    rw [List.map_map, List.map_const', Function.comp_def, List.map_const']
    exact congrArg (List.replicate · _) (length_onTop base.body s.body s.outer)
  have hmode : (s.after base).mode = s.mode.later base.position := rfl
  rw [faultsAtEnd, faultsAtEnd, hclosing, List.map_append, ← List.append_assoc, accept_after, hmode]
  congr 1
  cases s.mode with
  | ready | skipping | skippingNext => exact hfaults s
  | name | afterName | operand | operator => exact hfaults (s.accept eof)

theorem mode_fail_of_semicolon (s : ParseState) (ht : t.kind = .semicolon) (c : Complaint) :
    (s.fail t c).mode = .ready := if_pos ht

theorem mode_acceptOperand_of_semicolon (s : ParseState) (ht : t.kind = .semicolon) (goal : Goal)
    (stack : List Frame) : (s.acceptOperand goal stack t).mode = .ready := by
  rw [acceptOperand_other (by simp [Token.constant?, ht]) (by simp [ht]) (by simp [ht])
    (by simp [UnaryOp.ofKind?, ht])]
  exact mode_fail_of_semicolon s ht .expectExpression

theorem mode_acceptOperator_of_semicolon (s : ParseState) (ht : t.kind = .semicolon) (goal : Goal)
    (stack : List Frame) (e : Expr) : (s.acceptOperator goal stack e t).mode = .ready := by
  rcases acceptOperator_cases s goal stack e t with
    ⟨op, hop⟩ | hk | ⟨hk, -⟩ | ⟨-, hn⟩ | ⟨c, -, he⟩
  · simp [BinaryOp.ofKind?, ht] at hop
  · cases ht.symm.trans hk
  · cases ht.symm.trans hk
  · rw [acceptOperator_semicolon ht rfl hn]
    rfl
  · rw [he]
    exact mode_fail_of_semicolon _ ht c

theorem mode_begin_of_semicolon (s : ParseState) (ht : t.kind = .semicolon) : (s.begin t).mode = .ready := by
  rcases begin_cases s t with ⟨hk, -⟩ | ⟨hk, -⟩ | ⟨hk, -⟩ | ⟨hk, -⟩ | he
  · cases ht.symm.trans hk
  · cases ht.symm.trans hk
  · cases ht.symm.trans hk
  · cases ht.symm.trans hk
  · rw [he]
    exact mode_acceptOperand_of_semicolon s ht .effect []

/-- A `;` ends whatever is being read or thrown away. -/
theorem mode_feed_of_semicolon (s : ParseState) (ht : t.kind = .semicolon) : (s.feed t).mode = .ready := by
  change (s.accept t).mode = .ready
  unfold accept
  cases s.mode with
  | ready => exact mode_begin_of_semicolon s ht
  | name =>
    have hn : t.kind ≠ .identifier := by simp [ht]
    simp only [if_neg hn]
    exact mode_fail_of_semicolon s ht .expectName
  | afterName name =>
    simp only [ht]
    rfl
  | operand goal stack => exact mode_acceptOperand_of_semicolon s ht goal stack
  | operator goal stack e => exact mode_acceptOperator_of_semicolon s ht goal stack e
  | skipping =>
    have hn : ¬ t.kind.beginsStatement = true := by simp [ht, Token.Kind.beginsStatement]
    simp only [if_neg hn]
    exact if_pos ht
  | skippingNext => exact if_pos ht

theorem outer_acceptOperand (s : ParseState) (goal : Goal) (stack : List Frame) (t : Token) :
    (s.acceptOperand goal stack t).outer = s.outer := by
  rcases acceptOperand_cases s goal stack t with
    ⟨_, _, he⟩ | ⟨_, _, he⟩ | ⟨_, he⟩ | ⟨_, _, _, he⟩ | ⟨_, he⟩ | he
  all_goals exact (congrArg ParseState.outer he).trans rfl

theorem outer_acceptOperator (s : ParseState) (goal : Goal) (stack : List Frame) (e : Expr) (t : Token) :
    (s.acceptOperator goal stack e t).outer = s.outer := by
  rcases acceptOperator_cases s goal stack e t with
    ⟨op, hop⟩ | hk | ⟨hk, rest, hrest⟩ | ⟨hk, hn⟩ | ⟨c, -, he⟩
  · rw [acceptOperator_binary hop]
  · rw [acceptOperator_equal hk]
  · obtain ⟨⟨stack', e', faults⟩, hset⟩ : ∃ r, settle stack e s.faults = r := ⟨_, rfl⟩
    rw [hset] at hrest
    obtain rfl : stack' = .paren :: rest := hrest
    rw [acceptOperator_rightParen hk hset]
  · rw [acceptOperator_semicolon hk rfl hn]
    rfl
  · rw [he]
    rfl

theorem outer_begin (hl : t.kind ≠ .leftBrace) (ho : s.outer = []) : (s.begin t).outer = [] := by
  rcases begin_cases s t with ⟨-, he⟩ | ⟨-, he⟩ | ⟨hk, -⟩ | ⟨-, body, outer, ho', -⟩ | he
  · rw [he, ho]
  · rw [he, ho]
  · exact absurd hk hl
  · cases ho.symm.trans ho'
  · rw [he, outer_acceptOperand, ho]

/-- Only a `{` opens a block. -/
theorem outer_feed (hl : t.kind ≠ .leftBrace) (ho : s.outer = []) : (s.feed t).outer = [] := by
  change (s.accept t).outer = []
  unfold accept
  cases s.mode with
  | ready => exact outer_begin hl ho
  | name | afterName =>
    dsimp only
    split <;> exact ho
  | operand goal stack => exact (outer_acceptOperand s goal stack t).trans ho
  | operator goal stack e => exact (outer_acceptOperator s goal stack e t).trans ho
  | skipping =>
    dsimp only
    split
    · exact outer_begin hl ho
    · exact ho
  | skippingNext => exact ho

theorem outer_foldl_feed {tokens : List Token} (h : ∀ t ∈ tokens, t.kind ≠ .leftBrace) (ho : s.outer = []) :
    (tokens.foldl feed s).outer = [] := by
  induction tokens generalizing s with
  | nil => exact ho
  | cons t rest ih =>
    obtain ⟨ht, hrest⟩ := List.forall_mem_cons.1 h
    exact ih hrest (outer_feed ht ho)

end Runs
end ParseState

namespace Parsed
open ParseState

/-- Whether the tokens leave nothing open: they are a program without errors, or they open no block and
end with a `;`. -/
def LeavesNothingOpen (tokens : List Token) : Prop :=
  (ofTokens tokens).errors = [] ∨
    ∃ front semicolon, tokens = front ++ [semicolon] ∧ semicolon.kind = .semicolon ∧
      ∀ t ∈ front, t.kind ≠ .leftBrace

theorem LeavesNothingOpen.ready {tokens : List Token} (hinput : input tokens = tokens)
    (h : LeavesNothingOpen tokens) :
    (tokens.foldl feed {}).mode = .ready ∧ (tokens.foldl feed {}).outer = [] := by
  rcases h with h | ⟨front, semicolon, rfl, hk, hfront⟩
  · have hprogram : (ofTokens tokens).program = .ok (ofTokens tokens).statements := by
      rw [program, h]
      rfl
    obtain ⟨ds, htokens, hg, -, -⟩ := derivation_of_program hprogram
    have hread := reads_declarations (s := {}) ds rfl hg
    rw [htokens, hinput] at hread
    rw [hread]
    exact ⟨rfl, rfl⟩
  · rw [List.foldl_append, List.foldl_cons, List.foldl_nil]
    have hne : semicolon.kind ≠ .leftBrace := by simp [hk]
    exact ⟨mode_feed_of_semicolon _ hk, outer_feed hne (outer_foldl_feed hfront rfl)⟩

theorem input_eq_self {tokens : List Token} (h : ∀ t ∈ tokens, t.kind ≠ .eof) : input tokens = tokens := by
  simpa [input] using input_append h []

section Append
variable {piece : List Token}

theorem endMarker_append (h : ∀ t ∈ piece, t.kind ≠ .eof) {rest : List Token} (hrest : rest ≠ []) :
    endMarker (piece ++ rest) = endMarker rest := by
  have hnone : piece.find? (fun t => t.kind = .eof) = none := by simpa using h
  have hlast : (piece ++ rest).getLast? = rest.getLast? := by
    rw [List.getLast?_append, List.getLast?_eq_some_getLast hrest, Option.some_or]
  rw [endMarker, endMarker, List.find?_append, hnone, Option.none_or, hlast]

/-- What is read of a piece that leaves nothing open, and of the tokens after it. -/
theorem ofTokens_append (h : ∀ t ∈ piece, t.kind ≠ .eof) (hopen : LeavesNothingOpen piece)
    (rest : List Token) :
    (ofTokens (piece ++ rest)).statements = (ofTokens piece).statements ++ (ofTokens rest).statements ∧
      (ofTokens (piece ++ rest)).errors = (ofTokens piece).errors ++ (ofTokens rest).errors := by
  by_cases hrest : rest = []
  · rw [hrest, List.append_nil]
    exact ⟨(List.append_nil _).symm, (List.append_nil _).symm⟩
  obtain ⟨base, hbase⟩ : ∃ base, piece.foldl feed {} = base := ⟨_, rfl⟩
  obtain ⟨hmode, houter⟩ := hopen.ready (input_eq_self h)
  rw [hbase] at hmode houter
  have hpiece : ofTokens piece = ⟨base.body.reverse, base.faults.reverse⟩ := by
    change Parsed.mk ((input piece).foldl feed {}).statements
      (((input piece).foldl feed {}).faultsAtEnd (endMarker piece)) = _
    rw [input_eq_self h, hbase, ParseState.statements, faultsAtEnd, hmode, houter, List.map_nil,
      List.append_nil]
    rfl
  have hfinal : (input (piece ++ rest)).foldl feed {} = ((input rest).foldl feed {}).after base := by
    rw [input_append h, List.foldl_append, hbase, ← foldl_feed_after, after_eq_self hmode houter]
  have happend : ofTokens (piece ++ rest) =
      ⟨base.body.reverse ++ (ofTokens rest).statements,
        base.faults.reverse ++ (ofTokens rest).faults.map (Fault.later base.position)⟩ := by
    change Parsed.mk ((input (piece ++ rest)).foldl feed {}).statements
      (((input (piece ++ rest)).foldl feed {}).faultsAtEnd (endMarker (piece ++ rest))) = _
    rw [hfinal, endMarker_append h hrest, statements_after, faultsAtEnd_after]
    rfl
  rw [happend, hpiece]
  refine ⟨rfl, ?_⟩
  rw [errors, errors, List.map_append, List.map_map]
  rfl

end Append

/-- Pieces that leave nothing open are read independently of each other, and so is what comes after
them. -/
theorem ofTokens_flatten {pieces : List (List Token)}
    (h : ∀ piece ∈ pieces, (∀ t ∈ piece, t.kind ≠ .eof) ∧ LeavesNothingOpen piece) (rest : List Token) :
    (ofTokens (pieces.flatten ++ rest)).statements =
        pieces.flatMap (fun piece => (ofTokens piece).statements) ++ (ofTokens rest).statements ∧
      (ofTokens (pieces.flatten ++ rest)).errors =
        pieces.flatMap (fun piece => (ofTokens piece).errors) ++ (ofTokens rest).errors := by
  induction pieces with
  | nil => exact ⟨rfl, rfl⟩
  | cons piece pieces ih =>
    obtain ⟨⟨hpiece, hopen⟩, hpieces⟩ := List.forall_mem_cons.1 h
    obtain ⟨hs, he⟩ := ofTokens_append hpiece hopen (pieces.flatten ++ rest)
    obtain ⟨hs', he'⟩ := ih hpieces
    rw [List.flatten_cons, List.append_assoc, hs, he, hs', he', List.flatMap_cons, List.flatMap_cons,
      List.append_assoc, List.append_assoc]
    exact ⟨rfl, rfl⟩

/-- Of `{} var print; print` the empty block is read, and each of the other two has its own error. -/
theorem ofTokens_flatten_malformed :
    let block : List Token := [.bare .leftBrace, .bare .rightBrace]
    let malformed : List Token := [.bare .varKw, .bare .printKw, .bare .semicolon]
    let rest : List Token := [.bare .printKw]
    (ofTokens ([block, malformed].flatten ++ rest)).statements = [.block []] ∧
      (ofTokens ([block, malformed].flatten ++ rest)).errors =
        [⟨1, .atLexeme "", "Expect variable name."⟩, ⟨1, .atEnd, "Expect expression."⟩] := by
  intro block malformed rest
  have hblock : LeavesNothingOpen block := .inl rfl
  have hmalformed : LeavesNothingOpen malformed :=
    .inr ⟨[.bare .varKw, .bare .printKw], .bare .semicolon, rfl, rfl, by decide⟩
  have hpieces : ∀ piece ∈ [block, malformed],
      (∀ t ∈ piece, t.kind ≠ .eof) ∧ LeavesNothingOpen piece :=
    List.forall_mem_cons.2
      ⟨⟨by decide, hblock⟩, List.forall_mem_singleton.2 ⟨by decide, hmalformed⟩⟩
  obtain ⟨hstatements, herrors⟩ := ofTokens_flatten hpieces rest
  rw [hstatements, herrors]
  exact ⟨rfl, rfl⟩

end Parsed
end BlockScript
