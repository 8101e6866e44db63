import Mathlib
import BlockScript.Proofs.CorrectPrefix
import BlockScript.Proofs.GuardedNames
import BlockScript.Proofs.Separation

/-!
# Errors and statements are charged to tokens

Every token pays for at most one error or statement. A token that begins a declaration pays for the
statement or for the error that gives it up, an `=` for the error it may become, a `{` for the block or for
the error that it is not closed. What is not due yet is kept as `owed` beside what was found, and the sum
grows by at most one with a token. The errors for which a declaration is given up are at increasing
positions, as each is at the token that was read when it was found.
-/
namespace BlockScript
namespace Stmt

mutual

/-- The number of statements in the statement, itself included; blocks are entered. -/
def count : Stmt → Nat
  | .block body => 1 + countAll body
  | .expr _ | .print _ _ | .declare _ _ => 1

def countAll : List Stmt → Nat
  | [] => 0
  | s :: rest => s.count + countAll rest

end

theorem countAll_eq_sum (statements : List Stmt) : countAll statements = (statements.map count).sum := by
  induction statements with
  | nil => rfl
  | cons s rest ih => rw [countAll, ih, List.map_cons, List.sum_cons]

theorem countAll_reverse (statements : List Stmt) : countAll statements.reverse = countAll statements := by
  rw [countAll_eq_sum, countAll_eq_sum, List.map_reverse, List.sum_reverse]

theorem count_finish (goal : ParseState.Goal) (e : Expr) : (goal.finish e).count = 1 := by
  cases goal <;> rfl

end Stmt

namespace ParseState
open Stmt

/-! ### Charges -/

def Frame.isAssign : Frame → Bool
  | .assign _ _ _ => true
  | _ => false

/-- The assignments among the frames. -/
def assigns (stack : List Frame) : Nat := stack.countP Frame.isAssign

/-- What a declaration that is being read may still become: an error or a statement, and an error for each
assignment in its expression. -/
def Mode.owed : Mode → Nat
  | .ready | .skipping | .skippingNext => 0
  | .name | .afterName _ => 1
  | .operand _ stack | .operator _ stack _ => 1 + assigns stack

/-- What has been found: the faults and the statements, and what each open block will become. -/
def found (s : ParseState) : Nat :=
  s.faults.length + countAll s.body + (s.outer.map countAll).sum + s.outer.length

/-- All that the tokens read so far have to pay for. -/
def charge (s : ParseState) : Nat := s.found + s.mode.owed

section Charges
variable (s : ParseState) (t : Token) (goal : Goal) (stack : List Frame) (e : Expr)

theorem owed_deliver : (deliver goal stack e).owed = 1 + assigns stack := by
  unfold deliver
  split <;> rfl

theorem assigns_reduce (level : Nat) : assigns (reduce level stack e).1 = assigns stack := by
  induction stack generalizing e with
  | nil => rfl
  | cons f stack ih =>
    cases f with
    | binary left op line =>
      rw [reduce]
      split
      · exact ih _
      · rfl
    | paren | unary | assign => rfl

/-- Settling turns some of the assignments into faults. -/
theorem length_settle_add_assigns_le (faults : List Fault) :
    (settle stack e faults).2.2.length + assigns (settle stack e faults).1 ≤
      faults.length + assigns stack := by
  induction stack generalizing e faults with
  | nil => exact Nat.le_refl _
  | cons f stack ih =>
    cases f with
    | binary left op line => exact ih _ faults
    | assign target position equals =>
      have hfaults : (Grammar.targetFaults target position equals).length ≤ 1 := by
        unfold Grammar.targetFaults
        split <;> simp
      have hassigns : assigns (.assign target position equals :: stack) = assigns stack + 1 :=
        List.countP_cons_of_pos rfl
      have hrest := ih (Grammar.assignment target e)
        ((Grammar.targetFaults target position equals).reverse ++ faults)
      rw [List.length_append, List.length_reverse] at hrest
      rw [settle_assign, hassigns]
      omega
    | paren | unary => exact Nat.le_refl _

theorem charge_fail (c : Complaint) : (s.fail t c).charge = s.found + 1 := by
  have howed : (s.fail t c).mode.owed = 0 := by
    rw [fail]
    split <;> rfl
  rw [charge, howed]
  simp only [found, fail, List.length_cons]
  omega

theorem charge_emit (statement : Stmt) (h : statement.count = 1) : (s.emit statement).charge = s.found + 1 := by
  simp only [charge, found, emit, Mode.owed, countAll, h]
  omega

/-- An operand is paid for with the declaration it belongs to. -/
theorem charge_acceptOperand_le : (s.acceptOperand goal stack t).charge ≤ s.found + (1 + assigns stack) := by
  have hself : s.found + 1 ≤ s.found + (1 + assigns stack) := by omega
  rcases acceptOperand_cases s goal stack t with
    ⟨v, -, he⟩ | ⟨-, -, he⟩ | ⟨-, he⟩ | ⟨op, -, -, he⟩ | ⟨-, he⟩ | he <;> rw [he]
  · exact (congrArg (s.found + ·) (owed_deliver goal stack _)).le
  · exact (congrArg (s.found + ·) (owed_deliver goal stack _)).le
  · exact Nat.le_refl _
  · exact Nat.le_refl _
  · refine le_trans (Nat.le_of_eq ?_) hself
    simp only [charge, found, Mode.owed, List.length_cons]
    omega
  · rwa [charge_fail]

theorem found_settle_le :
    ({ s with faults := (settle stack e s.faults).2.2 } : ParseState).found ≤ s.found + assigns stack := by
  have hsettle := length_settle_add_assigns_le stack e s.faults
  simp only [found]
  omega

/-- An `=` pays for itself; any other operator is paid for with its declaration. -/
theorem charge_acceptOperator_le :
    (s.acceptOperator goal stack e t).charge ≤ s.found + (1 + assigns stack) + 1 := by
  have hfound := s.found_settle_le stack e
  rcases acceptOperator_cases s goal stack e t with
    ⟨op, hop⟩ | hk | ⟨hk, rest, hrest⟩ | ⟨hk, hn⟩ | ⟨c, -, he⟩
  · rw [acceptOperator_binary hop]
    have howed : assigns (.binary (reduce op.level stack e).2 op t.line :: (reduce op.level stack e).1) =
        assigns stack := assigns_reduce stack e op.level
    simp only [charge, Mode.owed, howed]
    exact Nat.le_succ _
  · rw [acceptOperator_equal hk]
    have howed : assigns (.assign (reduce 0 stack e).2 s.position t :: (reduce 0 stack e).1) =
        assigns stack + 1 := (List.countP_cons_of_pos rfl).trans (congrArg (· + 1) (assigns_reduce stack e 0))
    simp only [charge, Mode.owed, howed]
    exact Nat.le_refl _
  · have hsettle := length_settle_add_assigns_le stack e s.faults
    obtain ⟨⟨stack', e', faults⟩, hset⟩ : ∃ r, settle stack e s.faults = r := ⟨_, rfl⟩
    rw [hset] at hrest hsettle
    obtain rfl : stack' = .paren :: rest := hrest
    rw [acceptOperator_rightParen hk hset, charge, owed_deliver]
    have hassigns : assigns (.paren :: rest) = assigns rest := rfl
    simp only [found, hassigns] at hsettle ⊢
    omega
  · rw [acceptOperator_semicolon hk rfl hn, charge_emit _ _ (count_finish goal _)]
    exact (Nat.succ_le_succ hfound).trans (by omega)
  · rw [he, charge_fail]
    exact (Nat.succ_le_succ hfound).trans (by omega)

/-- The first token of a declaration pays for it, and a `}` pays for nothing. -/
theorem charge_begin_le : (s.begin t).charge ≤ s.found + 1 := by
  rcases begin_cases s t with ⟨-, he⟩ | ⟨-, he⟩ | ⟨-, he⟩ | ⟨-, body, outer, ho, he⟩ | he <;> rw [he]
  · exact Nat.le_refl _
  · exact Nat.le_refl _
  · simp only [charge, found, Mode.owed, countAll, List.map_cons, List.sum_cons, List.length_cons]
    omega
  · simp only [charge, found, Mode.owed, countAll, count, countAll_reverse, ho, List.map_cons, List.sum_cons,
      List.length_cons]
    omega
  · exact charge_acceptOperand_le s t .effect []

/-- A token pays for one error or statement. -/
theorem charge_accept_le : (s.accept t).charge ≤ s.charge + 1 := by
  have hbegin : (s.begin t).charge ≤ s.charge + 1 :=
    (charge_begin_le s t).trans (Nat.succ_le_succ (Nat.le_add_right _ _))
  have hskip : (s.skip t).charge ≤ s.charge + 1 := by
    have howed : (s.skip t).mode.owed = 0 := by
      rw [skip]
      split <;> rfl
    rw [charge, howed]
    exact Nat.le_succ_of_le (Nat.le_add_right s.found s.mode.owed)
  unfold accept
  cases hm : s.mode with
  | ready => exact hbegin
  | skipping =>
    dsimp only
    split
    · exact hbegin
    · exact hskip
  | skippingNext => exact hskip
  | name =>
    have hcharge : s.charge = s.found + 1 := by rw [charge, hm, Mode.owed]
    rw [hcharge]
    dsimp only
    split
    · exact Nat.le_succ _
    · rw [charge_fail]
      exact Nat.le_succ _
  | afterName name =>
    have hcharge : s.charge = s.found + 1 := by rw [charge, hm, Mode.owed]
    rw [hcharge]
    dsimp only
    split
    · exact Nat.le_succ _
    · rw [charge_emit _ _ rfl]
      exact Nat.le_succ _
    · rw [charge_fail]
      exact Nat.le_succ _
  | operand goal stack =>
    have hcharge : s.charge = s.found + (1 + assigns stack) := by rw [charge, hm, Mode.owed]
    rw [hcharge]
    exact Nat.le_succ_of_le (charge_acceptOperand_le s t goal stack)
  | operator goal stack e =>
    have hcharge : s.charge = s.found + (1 + assigns stack) := by rw [charge, hm, Mode.owed]
    rw [hcharge]
    exact charge_acceptOperator_le s t goal stack e

theorem charge_foldl_feed_le (tokens : List Token) :
    (tokens.foldl feed s).charge ≤ s.charge + tokens.length := by
  induction tokens generalizing s with
  | nil => exact Nat.le_refl _
  | cons t rest ih =>
    have hstep : (s.feed t).charge ≤ s.charge + 1 := charge_accept_le s t
    have hrest := ih (s.feed t)
    rw [List.foldl_cons, List.length_cons]
    omega

theorem countAll_statements_le : countAll s.statements ≤ countAll s.body + (s.outer.map countAll).sum := by
  rw [statements, countAll_reverse]
  cases hlast : s.outer.getLast? with
  | none => exact Nat.le_add_right _ _
  | some body =>
    have hmem : countAll body ∈ s.outer.map countAll :=
      List.mem_map.2 ⟨body, List.mem_of_getLast? hlast, rfl⟩
    exact (List.le_sum_of_mem hmem).trans (Nat.le_add_left _ _)

end Charges

/-! ### The end of the input -/

section AtEnd
variable {s : ParseState} {t eof : Token}

theorem length_faults_acceptOperand_le (s : ParseState) (goal : Goal) (stack : List Frame) (t : Token) :
    (s.acceptOperand goal stack t).faults.length ≤ s.faults.length + 1 := by
  rcases acceptOperand_cases s goal stack t with
    ⟨v, -, he⟩ | ⟨-, -, he⟩ | ⟨-, he⟩ | ⟨op, -, -, he⟩ | ⟨-, he⟩ | he <;> rw [he]
  · exact Nat.le_succ _
  · exact Nat.le_succ _
  · exact Nat.le_succ _
  · exact Nat.le_succ _
  · exact Nat.le_refl _
  · exact Nat.le_refl _

theorem acceptOperator_eof (s : ParseState) (goal : Goal) (stack : List Frame) (e : Expr)
    (h : eof.kind = .eof) :
    ∃ c, s.acceptOperator goal stack e eof =
      { s with faults := (settle stack e s.faults).2.2 }.fail eof c := by
  rcases acceptOperator_cases s goal stack e eof with
    ⟨op, hop⟩ | hk | ⟨hk, -⟩ | ⟨hk, -⟩ | ⟨c, -, he⟩
  · simp [h, BinaryOp.ofKind?] at hop
  · cases h.symm.trans hk
  · cases h.symm.trans hk
  · cases h.symm.trans hk
  · exact ⟨c, he⟩

/-- What the end of the input finds at fault is paid for already. -/
theorem length_faultsAtEnd_le (s : ParseState) (h : eof.kind = .eof) :
    (s.faultsAtEnd eof).length ≤ s.faults.length + s.mode.owed + s.outer.length := by
  rw [faultsAtEnd, List.length_append, List.length_reverse, List.length_map]
  refine Nat.add_le_add_right ?_ s.outer.length
  unfold accept
  cases hm : s.mode with
  | ready | skipping | skippingNext => exact Nat.le_refl _
  | name =>
    simp only [h, reduceCtorEq, if_false]
    exact Nat.le_refl _
  | afterName name =>
    simp only [h]
    exact Nat.le_refl _
  | operand goal stack =>
    refine (length_faults_acceptOperand_le s goal stack eof).trans ?_
    rw [Mode.owed]
    omega
  | operator goal stack e =>
    obtain ⟨c, he⟩ := acceptOperator_eof s goal stack e h
    have hsettle := length_settle_add_assigns_le stack e s.faults
    have howed : (Mode.operator goal stack e).owed = 1 + assigns stack := rfl
    dsimp only
    rw [he, howed]
    refine le_trans (Nat.succ_le_succ (Nat.le_of_add_right_le hsettle)) ?_
    omega

/-- All errors and statements that come out in the end are paid for. -/
theorem length_faultsAtEnd_add_countAll_le (s : ParseState) (h : eof.kind = .eof) :
    (s.faultsAtEnd eof).length + countAll s.statements ≤ s.charge := by
  have hfaults := length_faultsAtEnd_le s h
  have hstatements := countAll_statements_le s
  rw [charge, found]
  omega

/-- The declaration that is being read when the input ends is at fault once, and then each open block. -/
theorem filter_faultsAtEnd (s : ParseState) (eof : Token) :
    ∃ unfinished : List Fault, unfinished.length ≤ 1 ∧
      (∀ f ∈ unfinished, f.position = s.position ∧ f.token = eof) ∧
      (s.faultsAtEnd eof).filter Fault.isFatal =
        s.fatal.reverse ++
          (unfinished ++ s.outer.map fun _ => ⟨s.position, eof, .expectClosingBrace⟩) := by
  have hopen : ∀ f ∈ s.outer.map fun _ => Fault.mk s.position eof .expectClosingBrace,
      f.isFatal = true := by
    intro f hf
    obtain ⟨-, -, rfl⟩ := List.mem_map.1 hf
    rfl
  have hblamed : (s.accept eof).fatal = s.fatal ∨
      ∃ c, (s.accept eof).fatal = ⟨s.position, eof, c⟩ :: s.fatal := (step_accept s eof).fatal_cases
  rw [faultsAtEnd, List.filter_append, List.filter_eq_self.2 hopen, List.filter_reverse]
  cases s.mode with
  | ready | skipping | skippingNext => exact ⟨[], by simp, by simp, rfl⟩
  | name | afterName | operand | operator =>
    rcases hblamed with he | ⟨c, he⟩
    · refine ⟨[], by simp, by simp, ?_⟩
      rw [← he]
      rfl
    · refine ⟨[⟨s.position, eof, c⟩], by simp, by simp, ?_⟩
      have hreverse : (s.accept eof).fatal.reverse = s.fatal.reverse ++ [⟨s.position, eof, c⟩] := by
        rw [he, List.reverse_cons]
      rw [← List.append_assoc, ← hreverse]
      rfl

/-- The faults for which declarations were given up lie behind each other, the newest first, among the
tokens that were read. -/
structure FatalInOrder (s : ParseState) : Prop where
  lt_position : ∀ f ∈ s.fatal, f.position < s.position
  pairwise : s.fatal.Pairwise fun later earlier => earlier.position < later.position

namespace FatalInOrder

theorem initial : FatalInOrder {} := ⟨by simp [fatal], List.Pairwise.nil⟩

theorem feed (h : s.FatalInOrder) (t : Token) : (s.feed t).FatalInOrder := by
  have hlt : ∀ f ∈ s.fatal, f.position < s.position + 1 := fun f hf => Nat.lt_succ_of_lt (h.lt_position f hf)
  have hcases : (s.feed t).fatal = s.fatal ∨ ∃ c, (s.feed t).fatal = ⟨s.position, t, c⟩ :: s.fatal :=
    (step_accept s t).fatal_cases
  rcases hcases with he | ⟨c, he⟩
  · refine ⟨?_, ?_⟩ <;> rw [he]
    · exact hlt
    · exact h.pairwise
  · refine ⟨?_, ?_⟩ <;> rw [he]
    · exact List.forall_mem_cons.2 ⟨Nat.lt_succ_self _, hlt⟩
    · exact List.pairwise_cons.2 ⟨h.lt_position, h.pairwise⟩

theorem foldl_feed (h : s.FatalInOrder) (tokens : List Token) :
    (tokens.foldl ParseState.feed s).FatalInOrder := by
  induction tokens generalizing s with
  | nil => exact h
  | cons t rest ih => exact ih (h.feed t)

end FatalInOrder

/-! ### Open blocks -/

theorem length_outer_begin (s : ParseState) (t : Token) :
    (s.begin t).outer.length ≤ s.outer.length ∨
      t.kind = .leftBrace ∧ (s.begin t).outer.length = s.outer.length + 1 := by
  rcases begin_cases s t with ⟨-, he⟩ | ⟨-, he⟩ | ⟨hk, he⟩ | ⟨-, body, outer, ho, he⟩ | he <;> rw [he]
  · exact .inl (Nat.le_refl _)
  · exact .inl (Nat.le_refl _)
  · exact .inr ⟨hk, rfl⟩
  · left
    rw [ho]
    exact Nat.le_succ _
  · exact .inl (outer_acceptOperand s .effect [] t ▸ Nat.le_refl _)

/-- Only a `{` opens a block, and no more than one. -/
theorem length_outer_feed (s : ParseState) (t : Token) :
    (s.feed t).outer.length ≤ s.outer.length ∨
      t.kind = .leftBrace ∧ (s.feed t).outer.length = s.outer.length + 1 := by
  change (s.accept t).outer.length ≤ _ ∨ t.kind = .leftBrace ∧ (s.accept t).outer.length = _
  unfold accept
  cases s.mode with
  | ready => exact length_outer_begin s t
  | name | afterName =>
    left
    dsimp only
    split <;> exact Nat.le_refl _
  | operand goal stack => exact .inl (outer_acceptOperand s goal stack t ▸ Nat.le_refl _)
  | operator goal stack e => exact .inl (outer_acceptOperator s goal stack e t ▸ Nat.le_refl _)
  | skipping =>
    dsimp only
    split
    · exact length_outer_begin s t
    · exact .inl (Nat.le_refl _)
  | skippingNext => exact .inl (Nat.le_refl _)

end AtEnd
end ParseState

namespace Parsed
open ParseState Stmt

/-- The number of blocks that are open before the token at a position. -/
def depthAt (tokens : List Token) (position : Nat) : Nat := (stateAt tokens position).outer.length

/-- The positions of the braces whose blocks are never closed: ever after, more blocks are open than before
the brace. -/
def unclosed (tokens : List Token) : Finset Nat :=
  (Finset.range (input tokens).length).filter fun i =>
    (input tokens)[i]?.map Token.kind = some .leftBrace ∧
      ∀ j ∈ Finset.Ioc i (input tokens).length, depthAt tokens i < depthAt tokens j

section Blocks
variable {tokens : List Token}

/-- The block that is the outermost but `level` at the end was opened by a brace that is never closed. -/
theorem exists_mem_unclosed {level : Nat} (h : level < depthAt tokens (input tokens).length) :
    ∃ i ∈ unclosed tokens, depthAt tokens i = level := by
  -- the last position before which no more than `level` blocks are open
  obtain ⟨i, hi⟩ : ∃ i, Nat.findGreatest (depthAt tokens · ≤ level) (input tokens).length = i := ⟨_, rfl⟩
  obtain ⟨hle, hlow, hhigh⟩ := Nat.findGreatest_eq_iff.1 hi
  have hlow : depthAt tokens i ≤ level := by
    by_cases hzero : i = 0
    · rw [hzero]
      exact Nat.zero_le level
    · exact hlow hzero
  have hhigh : ∀ j, i < j → j ≤ (input tokens).length → level < depthAt tokens j :=
    fun j hij hj => Nat.lt_of_not_le (hhigh hij hj)
  have hlt : i < (input tokens).length := by
    refine Nat.lt_of_le_of_ne hle ?_
    rintro rfl
    exact absurd hlow (Nat.not_le_of_lt h)
  -- the token there opens a block, since one more is open after it
  have ht := List.getElem?_eq_getElem hlt
  have hnext := hhigh (i + 1) (Nat.lt_succ_self i) hlt
  rw [depthAt, stateAt_succ ht] at hnext
  rcases length_outer_feed (stateAt tokens i) (input tokens)[i] with hle | ⟨hk, he⟩
  · exact absurd (hle.trans hlow) (Nat.not_le_of_lt hnext)
  · have hdepth : depthAt tokens i = level := by
      rw [he] at hnext
      exact Nat.le_antisymm hlow (Nat.le_of_lt_succ hnext)
    refine ⟨i, Finset.mem_filter.2 ⟨Finset.mem_range.2 hlt, ?_, fun j hj => ?_⟩, hdepth⟩
    · rw [ht, Option.map_some, hk]
    · obtain ⟨hij, hj⟩ := Finset.mem_Ioc.1 hj
      rw [hdepth]
      exact hhigh j hij hj

/-- The blocks that are open at the end were opened by different braces. -/
theorem depthAt_le_card_unclosed (tokens : List Token) :
    depthAt tokens (input tokens).length ≤ (unclosed tokens).card := by
  have hsurj : Set.SurjOn (depthAt tokens) (unclosed tokens)
      (Finset.range (depthAt tokens (input tokens).length)) := by
    intro level hlevel
    exact exists_mem_unclosed (Finset.mem_range.1 hlevel)
  have hcard := Finset.card_le_card_of_surjOn _ hsurj
  rwa [Finset.card_range] at hcard

end Blocks

/-- The faults with a message other than the one for assignments to something that is not a name. -/
def otherFaults (p : Parsed) : List Fault :=
  p.faults.filter fun f => f.error.message != "Invalid assignment target."

theorem otherFaults_eq (p : Parsed) : p.otherFaults = p.faults.filter Fault.isFatal := by
  refine List.filter_congr fun f _ => ?_
  rw [Bool.eq_iff_iff, Fault.isFatal_iff, bne_iff_ne]
  exact not_congr (Complaint.text_eq_invalidTarget_iff f.complaint)

/-- Each token pays for at most one error or statement, whatever the tokens are. The errors other than
assignments to something that is not a name are each at a later token than the one before, until the end
of the input is at fault: once for the declaration that it breaks off, and once for each brace that is
never closed. -/
theorem errors_do_not_cascade (tokens : List Token) :
    (ofTokens tokens).errors.length + countAll (ofTokens tokens).statements ≤ (input tokens).length ∧
    ∃ inside atEnd : List Fault, (ofTokens tokens).otherFaults = inside ++ atEnd ∧
      inside.Pairwise (fun f g => f.position < g.position) ∧
      (∀ f ∈ inside, (input tokens)[f.position]? = some f.token) ∧
      (∀ f ∈ atEnd, f.position = (input tokens).length ∧ f.token = endMarker tokens) ∧
      atEnd.length ≤ (unclosed tokens).card + 1 := by
  constructor
  · have hread := charge_foldl_feed_le {} (input tokens)
    have hend := length_faultsAtEnd_add_countAll_le ((input tokens).foldl feed {}) (kind_endMarker tokens)
    rw [errors, List.length_map]
    exact (hend.trans hread).trans (Nat.zero_add _).le
  · have horder := FatalInOrder.initial.foldl_feed (input tokens)
    obtain ⟨unfinished, hone, hunfinished, hfilter⟩ :=
      filter_faultsAtEnd ((input tokens).foldl feed {}) (endMarker tokens)
    have hposition : ((input tokens).foldl feed {}).position = (input tokens).length :=
      (position_foldl_feed _ _).trans (Nat.zero_add _)
    rw [hposition] at hunfinished hfilter
    refine ⟨_, _, (otherFaults_eq _).trans hfilter, List.pairwise_reverse.2 horder.pairwise, ?_, ?_, ?_⟩
    · intro f hf
      rcases exists_of_mem_fatal (List.mem_reverse.1 hf) with hf | ⟨before, t, after, htokens, hat, ht, -⟩
      · cases hf
      · have hat : f.position = before.length := hat.trans (Nat.zero_add _)
        rw [htokens, hat, ht]
        exact getElem?_append_cons_length before after t
    · intro f hf
      rcases List.mem_append.1 hf with hf | hf
      · exact hunfinished f hf
      · obtain ⟨-, -, rfl⟩ := List.mem_map.1 hf
        exact ⟨rfl, rfl⟩
    · have hdepth := depthAt_le_card_unclosed tokens
      rw [depthAt, stateAt, List.take_length] at hdepth
      rw [List.length_append, List.length_map]
      omega

end Parsed
end BlockScript
