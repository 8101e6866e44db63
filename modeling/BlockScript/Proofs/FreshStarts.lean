import BlockScript.Proofs.Courses
import BlockScript.Proofs.Separation

/-!
# Fresh starts

Where a declaration starts, only the number of open blocks matters of what was read before. Reading goes on
as from a state with that many empty blocks, whatever the statements in them are (`Twin`), and however many
tokens and faults there were.
-/
namespace BlockScript
namespace Stmt

mutual

/-- The statements other than blocks in source order; blocks are entered. -/
def leaves : Stmt → List Stmt
  | .block body => leavesOfAll body
  | .expr e => [.expr e]
  | .print e line => [.print e line]
  | .declare name initializer => [.declare name initializer]

def leavesOfAll : List Stmt → List Stmt
  | [] => []
  | s :: rest => s.leaves ++ leavesOfAll rest

end

theorem leavesOfAll_eq_flatMap (statements : List Stmt) :
    leavesOfAll statements = statements.flatMap leaves := by
  induction statements with
  | nil => rfl
  | cons s rest ih => rw [leavesOfAll, ih, List.flatMap_cons]

end Stmt

namespace ParseState

/-- The statements other than blocks that have been read, in order; those in open blocks count. -/
def leaves (s : ParseState) : List Stmt :=
  (s.body :: s.outer).reverse.flatMap fun body => Stmt.leavesOfAll body.reverse

section Leaves
variable (s : ParseState)

@[simp] theorem leaves_emit (statement : Stmt) : (s.emit statement).leaves = s.leaves ++ statement.leaves := by
  simp [leaves, emit, Stmt.leavesOfAll_eq_flatMap]

theorem leaves_open :
    ({ s with mode := .ready, body := [], outer := s.body :: s.outer } : ParseState).leaves = s.leaves := by
  simp [leaves, Stmt.leavesOfAll]

theorem leaves_close {body : List Stmt} {outer : List (List Stmt)} (h : s.outer = body :: outer) :
    ({ s with mode := .ready, body := .block s.body.reverse :: body, outer } : ParseState).leaves =
      s.leaves := by
  simp [leaves, h, Stmt.leavesOfAll_eq_flatMap, Stmt.leaves]

end Leaves

/-! ### States that have read different statements -/

/-- The states differ in statements only, and have read the same ones after those that they began with. -/
structure Twin (before before' : List Stmt) (s s' : ParseState) : Prop where
  position : s'.position = s.position
  mode : s'.mode = s.mode
  faults : s'.faults = s.faults
  depth : s'.outer.length = s.outer.length
  leaves : ∃ read, s.leaves = before ++ read ∧ s'.leaves = before' ++ read

namespace Twin
variable {before before' : List Stmt} {s s' : ParseState} {t : Token}

theorem setMode (h : Twin before before' s s') (mode : Mode) :
    Twin before before' { s with mode } { s' with mode } :=
  ⟨h.position, rfl, h.faults, h.depth, h.leaves⟩

theorem setFaults (h : Twin before before' s s') (faults : List Fault) :
    Twin before before' { s with faults } { s' with faults } :=
  ⟨h.position, h.mode, rfl, h.depth, h.leaves⟩

theorem skip (h : Twin before before' s s') (t : Token) : Twin before before' (s.skip t) (s'.skip t) :=
  h.setMode _

theorem fail (h : Twin before before' s s') (t : Token) (c : Complaint) :
    Twin before before' (s.fail t c) (s'.fail t c) := by
  rw [ParseState.fail, ParseState.fail, h.position, h.faults]
  exact ⟨rfl, rfl, rfl, h.depth, h.leaves⟩

theorem emit (h : Twin before before' s s') (statement : Stmt) :
    Twin before before' (s.emit statement) (s'.emit statement) := by
  obtain ⟨read, hs, hs'⟩ := h.leaves
  refine ⟨h.position, rfl, h.faults, h.depth, read ++ statement.leaves, ?_, ?_⟩
  · rw [leaves_emit, hs, List.append_assoc]
  · rw [leaves_emit, hs', List.append_assoc]

theorem acceptOperand (h : Twin before before' s s') (goal : Goal) (stack : List Frame) (t : Token) :
    Twin before before' (s.acceptOperand goal stack t) (s'.acceptOperand goal stack t) := by
  refine acceptOperand_rel Iff.rfl (fun _ => h.setMode _) (h.setMode _) (fun _ => h.setMode _) ?_
    (h.fail t .expectExpression)
  rw [h.position, h.faults]
  exact ⟨rfl, rfl, rfl, h.depth, h.leaves⟩

theorem acceptOperator (h : Twin before before' s s') (goal : Goal) (stack : List Frame) (e : Expr)
    (t : Token) :
    Twin before before' (s.acceptOperator goal stack e t) (s'.acceptOperator goal stack e t) := by
  cases hb : BinaryOp.ofKind? t.kind with
  | some op =>
    rw [acceptOperator_binary hb, acceptOperator_binary hb]
    exact h.setMode _
  | none =>
    by_cases he : t.kind = .equal
    · rw [acceptOperator_equal he, acceptOperator_equal he, h.position]
      exact ⟨rfl, rfl, h.faults, h.depth, h.leaves⟩
    · rw [ParseState.acceptOperator, ParseState.acceptOperator, hb, if_neg he, if_neg he, h.faults]
      dsimp only
      obtain ⟨stack', e', faults⟩ := settle stack e s.faults
      split
      · split
        · exact ⟨h.position, rfl, rfl, h.depth, h.leaves⟩
        · exact (h.setFaults _).fail t .expectClosingParen
      · split
        · exact (h.setFaults _).emit (goal.finish _)
        · exact (h.setFaults _).fail t goal.unfinished

theorem begin (h : Twin before before' s s') (t : Token) : Twin before before' (s.begin t) (s'.begin t) := by
  have hother := h.acceptOperand .effect [] t
  have hdepth := h.depth
  obtain ⟨read, hs, hs'⟩ := h.leaves
  unfold ParseState.begin
  cases hk : t.kind with
  | varKw | printKw => exact h.setMode _
  | leftBrace =>
    exact ⟨h.position, rfl, h.faults, congrArg Nat.succ hdepth, read, (leaves_open s).trans hs,
      (leaves_open s').trans hs'⟩
  | rightBrace =>
    cases ho : s.outer with
    | nil =>
      rw [ho] at hdepth
      rw [List.eq_nil_of_length_eq_zero hdepth]
      exact hother
    | cons body outer =>
      rw [ho] at hdepth
      obtain ⟨body', outer', ho'⟩ := List.exists_cons_of_length_eq_add_one hdepth
      rw [ho', List.length_cons, List.length_cons] at hdepth
      rw [ho']
      exact ⟨h.position, rfl, h.faults, Nat.succ.inj hdepth, read, (leaves_close s ho).trans hs,
        (leaves_close s' ho').trans hs'⟩
  | _ => exact hother

theorem accept (h : Twin before before' s s') (t : Token) : Twin before before' (s.accept t) (s'.accept t) := by
  rw [ParseState.accept, ParseState.accept, h.mode]
  cases s.mode with
  | ready => exact h.begin t
  | name =>
    dsimp only
    split
    · exact h.setMode _
    · exact h.fail t .expectName
  | afterName name =>
    dsimp only
    split
    · exact h.setMode _
    · exact h.emit (.declare name none)
    · exact h.fail t .expectSemicolonAfterDeclaration
  | operand goal stack => exact h.acceptOperand goal stack t
  | operator goal stack e => exact h.acceptOperator goal stack e t
  | skipping =>
    dsimp only
    split
    · exact h.begin t
    · exact h.skip t
  | skippingNext => exact h.skip t

theorem feed (h : Twin before before' s s') (t : Token) : Twin before before' (s.feed t) (s'.feed t) := by
  have haccept := h.accept t
  refine ⟨?_, haccept.mode, haccept.faults, haccept.depth, haccept.leaves⟩
  rw [position_feed, position_feed, h.position]

theorem foldl_feed (h : Twin before before' s s') (tokens : List Token) :
    Twin before before' (tokens.foldl ParseState.feed s) (tokens.foldl ParseState.feed s') := by
  induction tokens generalizing s s' with
  | nil => exact h
  | cons t rest ih => exact ih (h.feed t)

end Twin

/-! ### Fresh starts -/

/-- Nothing has been read but the braces of some blocks. -/
def fresh (depth : Nat) : ParseState := { outer := List.replicate depth [] }

theorem leaves_fresh (depth : Nat) : (fresh depth).leaves = [] := by
  simp [leaves, fresh, Stmt.leavesOfAll]

theorem onTop_nil (body : List Stmt) (outer : List (List Stmt)) : onTop [] body outer = (body, outer) := by
  induction outer generalizing body with
  | nil => rw [onTop, List.append_nil]
  | cons next outer ih => rw [onTop, ih]

theorem leaves_after {s base : ParseState} (h : base.body = []) : (s.after base).leaves = s.leaves := by
  rw [leaves, after, leaves, h, onTop_nil]

section Fresh
variable {s : ParseState} {t : Token}

theorem accept_of_startsDeclaration (h : s.StartsDeclaration t) : s.accept t = s.begin t := by
  rcases h with hm | ⟨hm, hk⟩
  · rw [accept, hm]
  · rw [accept, hm]
    exact if_pos hk

/-- The mode in which a declaration starts leaves no trace. -/
theorem begin_ready (s : ParseState) (t : Token) :
    ({ s with mode := .ready } : ParseState).begin t = s.begin t := by
  have hother : ({ s with mode := .ready } : ParseState).acceptOperand .effect [] t =
      s.acceptOperand .effect [] t :=
    acceptOperand_rel Iff.rfl (fun _ => rfl) rfl (fun _ => rfl) rfl rfl
  obtain ⟨position, mode, body, outer, faults⟩ := s
  unfold begin
  cases t.kind with
  | varKw | printKw | leftBrace => rfl
  | rightBrace =>
    cases outer with
    | nil => exact hother
    | cons body outer => rfl
  | _ => exact hother

/-- Where a declaration starts, it is all the same what was read before, but for the number of open blocks. -/
theorem foldl_feed_of_startsDeclaration (h : s.StartsDeclaration t) (rest : List Token) :
    let s' := (t :: rest).foldl feed s
    let r := (t :: rest).foldl feed (fresh s.outer.length)
    s'.mode = r.mode.later s.position ∧ s'.outer.length = r.outer.length ∧ s'.leaves = s.leaves ++ r.leaves ∧
      s'.faults = r.faults.map (Fault.later s.position) ++ s.faults := by
  intro s' r
  let base : ParseState := { position := s.position, faults := s.faults }
  have hready : s' = (t :: rest).foldl feed { s with mode := .ready } := by
    have haccept : s.accept t = ({ s with mode := .ready } : ParseState).accept t := by
      rw [accept_of_startsDeclaration h, accept_of_startsDeclaration (.inl rfl), begin_ready]
    exact congrArg (fun s' : ParseState => rest.foldl feed { s' with position := s.position + 1 }) haccept
  have htwin : Twin s.leaves [] { s with mode := .ready } ((fresh s.outer.length).after base) := by
    refine ⟨rfl, rfl, rfl, ?_, [], (List.append_nil _).symm, ?_⟩
    · exact (length_onTop [] [] _).trans (List.length_replicate)
    · exact (leaves_after rfl).trans (leaves_fresh _)
  have hrun := htwin.foldl_feed (t :: rest)
  rw [← hready, foldl_feed_after] at hrun
  obtain ⟨read, hs, hr⟩ := hrun.leaves
  rw [leaves_after rfl, List.nil_append] at hr
  refine ⟨hrun.mode.symm, ?_, ?_, hrun.faults.symm⟩
  · exact hrun.depth.symm.trans (length_onTop [] _ _)
  · rw [hs, ← hr]

end Fresh
end ParseState
end BlockScript
