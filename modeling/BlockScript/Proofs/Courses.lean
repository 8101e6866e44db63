import BlockScript.Proofs.Blame
import BlockScript.Proofs.Simulation

/-!
# The course of a declaration

What a token can do to a declaration (`Course`): begin it, name it, open its initializer, go on with its
expression, end it, or give it up. While an expression is read its purpose stays the same, nothing
outside of it changes, and it takes in no name that it defines.
-/
namespace BlockScript
namespace ParseState

/-- What the expression is for, if one is being read. -/
def Mode.goal? : Mode → Option Goal
  | .operand goal _ | .operator goal _ _ => some goal
  | _ => none

theorem goal?_deliver (goal : Goal) (stack : List Frame) (e : Expr) :
    (deliver goal stack e).goal? = some goal := by
  unfold deliver
  split <;> rfl

theorem goal?_fail (s : ParseState) (t : Token) (c : Complaint) : (s.fail t c).mode.goal? = none := by
  rw [fail]
  split <;> rfl

theorem goal?_skip (s : ParseState) (t : Token) : (s.skip t).mode.goal? = none := by
  rw [skip]
  split <;> rfl

/-! ### Names in unfinished expressions -/

def Frame.names : Frame → List Token
  | .binary left _ _ => left.names
  | .assign target _ _ => target.names
  | .paren | .unary _ _ => []

/-- The names in the expression being read. -/
def Mode.names : Mode → List Token
  | .operand _ stack => stack.flatMap Frame.names
  | .operator _ stack e => stack.flatMap Frame.names ++ e.names
  | _ => []

section Names
variable {stack : List Frame} {e : Expr} {n : Token}

/-- Whether the name occurs in the frames or in the expression on top of them. -/
def Occurs (n : Token) (stack : List Frame) (e : Expr) : Prop :=
  n ∈ stack.flatMap Frame.names ++ e.names

theorem occurs_of_mem (h : n ∈ e.names) : Occurs n stack e := List.mem_append_right _ h

theorem names_deliver (goal : Goal) (stack : List Frame) (e : Expr) :
    (deliver goal stack e).names = stack.flatMap Frame.names ++ e.names := by
  unfold deliver
  split <;> rfl

/-- An expression has the names of the frame that it completes and of the one that it was waiting for. -/
theorem occurs_binary {left : Expr} {op : BinaryOp} {line : UInt32}
    (h : Occurs n stack (.binary left op line e)) : Occurs n (.binary left op line :: stack) e := by
  simp only [Occurs, Expr.names, List.mem_append, List.flatMap_cons, Frame.names] at h ⊢
  grind

theorem occurs_assign {target : Expr} {position : Nat} {equals : Token}
    (h : Occurs n stack (Grammar.assignment target e)) :
    Occurs n (.assign target position equals :: stack) e := by
  have hnames : ∀ n ∈ (Grammar.assignment target e).names, n ∈ target.names ++ e.names := by
    unfold Grammar.assignment
    split
    · exact fun n hn => hn
    · exact fun n hn => List.mem_append_left _ hn
  simp only [Occurs, List.mem_append, List.flatMap_cons, Frame.names] at h hnames ⊢
  have hn := hnames n
  grind

theorem occurs_reduce {level : Nat}
    (h : Occurs n (reduce level stack e).1 (reduce level stack e).2) : Occurs n stack e := by
  induction stack generalizing e with
  | nil => exact h
  | cons f stack ih =>
    cases f with
    | binary left op line =>
      rw [reduce] at h
      split at h
      · exact occurs_binary (ih h)
      · exact h
    | paren | unary | assign => exact h

theorem occurs_settle {faults : List Fault}
    (h : Occurs n (settle stack e faults).1 (settle stack e faults).2.1) : Occurs n stack e := by
  induction stack generalizing e faults with
  | nil => exact h
  | cons f stack ih =>
    cases f with
    | binary left op line => exact occurs_binary (ih h)
    | assign target position equals =>
      rw [settle_assign] at h
      exact occurs_assign (ih h)
    | paren | unary => exact h

end Names

/-! ### Steps -/

/-- Whether the token is taken as the first one of a declaration, or closes a block in its place. -/
def StartsDeclaration (s : ParseState) (t : Token) : Prop :=
  s.mode = .ready ∨ s.mode = .skipping ∧ t.kind.beginsStatement = true

/-- All that a token can do to the declaration that is being read. -/
inductive Course (s : ParseState) (t : Token) : ParseState → Prop where
  | keyword (h : s.StartsDeclaration t) (hk : t.kind = .varKw) : Course s t { s with mode := .name }
  | name (hm : s.mode = .name) (hk : t.kind = .identifier) : Course s t { s with mode := .afterName t }
  | equals {name : Token} (hm : s.mode = .afterName name) (hk : t.kind = .equal) :
      Course s t { s with mode := .operand (.initializer name) [] }
  | starts (h : s.StartsDeclaration t) {goal : Goal} (hgoal : ∀ x, goal.defines x = false) {mode : Mode}
      (hmode : mode.goal? = some goal) : Course s t { s with mode }
  | goesOn {goal : Goal} (hm : s.mode.goal? = some goal) {mode : Mode} (hmode : mode.goal? = some goal)
      (hnames : ∀ n ∈ mode.names, n ∈ s.mode.names ∨ goal.defines n.lexeme = false) (found : List Fault)
      (hfound : ∀ f ∈ found, f.complaint = .invalidTarget) :
      Course s t { s with mode, faults := found ++ s.faults }
  | ends {goal : Goal} {stack : List Frame} {left : Expr} (hm : s.mode = .operator goal stack left)
      {e : Expr} (he : e.names ⊆ s.mode.names) (found : List Fault)
      (hfound : ∀ f ∈ found, f.complaint = .invalidTarget) :
      Course s t ({ s with faults := found ++ s.faults }.emit (goal.finish e))
  | declares {name : Token} (hm : s.mode = .afterName name) : Course s t (s.emit (.declare name none))
  | opens (h : s.StartsDeclaration t) :
      Course s t { s with mode := .ready, body := [], outer := s.body :: s.outer }
  | closes (h : s.StartsDeclaration t) {body : List Stmt} {outer : List (List Stmt)}
      (houter : s.outer = body :: outer) :
      Course s t { s with mode := .ready, body := .block s.body.reverse :: body, outer }
  | selfReference {goal : Goal} {stack : List Frame} (hm : s.mode = .operand goal stack)
      (hk : t.kind = .identifier) (hd : goal.defines t.lexeme = true) :
      Course s t
        { s with
          mode := .skippingNext
          faults := ⟨s.position, t, .selfReference t.lexeme⟩ :: s.faults }
  | fails (found : List Fault) (hfound : ∀ f ∈ found, f.complaint = .invalidTarget) {c : Complaint}
      (hc : c.isExpectation = true) : Course s t ({ s with faults := found ++ s.faults }.fail t c)
  | discarded (h : s.discards t = true) : Course s t (s.skip t)

namespace Course
variable {s : ParseState} {t : Token} {goal : Goal} {stack : List Frame}

theorem of_fail {c : Complaint} (hc : c.isExpectation = true) : Course s t (s.fail t c) :=
  .fails [] (by simp) hc

/-- The expression goes on, and nothing is at fault. -/
theorem of_mode (hm : s.mode.goal? = some goal) {mode : Mode} (hmode : mode.goal? = some goal)
    (hnames : ∀ n ∈ mode.names, n ∈ s.mode.names ∨ goal.defines n.lexeme = false) :
    Course s t { s with mode } :=
  .goesOn hm hmode hnames [] (by simp)

theorem acceptOperand (hm : s.mode = .operand goal stack) : Course s t (s.acceptOperand goal stack t) := by
  have hgoal : s.mode.goal? = some goal := by rw [hm]; rfl
  have hstack : ∀ n ∈ stack.flatMap Frame.names, n ∈ s.mode.names := by
    rw [hm]
    exact fun n hn => hn
  have hprimary (e : Expr) (he : ∀ n ∈ e.names, goal.defines n.lexeme = false) :
      Course s t { s with mode := deliver goal stack e } := by
    refine of_mode hgoal (goal?_deliver goal stack e) fun n hn => ?_
    rw [names_deliver, List.mem_append] at hn
    exact hn.imp (hstack n) (he n)
  by_cases hself : t.kind = .identifier ∧ goal.defines t.lexeme = true
  · rw [acceptOperand_selfReference hself.1 hself.2]
    exact .selfReference hm hself.1 hself.2
  have hfalse (hk : t.kind = .identifier) : goal.defines t.lexeme = false := by
    rw [← Bool.not_eq_true]
    exact fun hd => hself ⟨hk, hd⟩
  have hname (hk : t.kind = .identifier) : Course s t { s with mode := deliver goal stack (.var t) } :=
    hprimary (.var t) fun n hn => by rw [List.mem_singleton.1 hn, hfalse hk]
  rcases acceptOperand_cases s goal stack t with
    ⟨v, -, he⟩ | ⟨hk, -, he⟩ | ⟨-, he⟩ | ⟨op, -, -, he⟩ | ⟨hk, -⟩ | he
  · rw [he]
    exact hprimary (.literal v) (by simp [Expr.names])
  · rw [he]
    exact hname hk
  · rw [he]
    exact of_mode hgoal rfl fun n hn => .inl (hstack n hn)
  · rw [he]
    exact of_mode hgoal rfl fun n hn => .inl (hstack n hn)
  · rw [acceptOperand_name hk (hfalse hk)]
    exact hname hk
  · rw [he]
    exact of_fail rfl

theorem acceptOperator {e : Expr} (hm : s.mode = .operator goal stack e) :
    Course s t (s.acceptOperator goal stack e t) := by
  have hgoal : s.mode.goal? = some goal := by rw [hm]; rfl
  have hnames {n : Token} (h : Occurs n stack e) : n ∈ s.mode.names := by
    rw [hm]
    exact h
  have hreduce {level : Nat} {n : Token}
      (h : n ∈ (reduce level stack e).2.names ++ (reduce level stack e).1.flatMap Frame.names) :
      n ∈ s.mode.names :=
    hnames (occurs_reduce (List.mem_append.2 (List.mem_append.1 h).symm))
  obtain ⟨found, hfound, hsettle⟩ := settle_faults stack e s.faults
  obtain ⟨⟨stack', e', faults⟩, hset⟩ : ∃ r, settle stack e s.faults = r := ⟨_, rfl⟩
  have hoccurs {n : Token} (h : Occurs n stack' e') : n ∈ s.mode.names := by
    have hsettled : Occurs n (settle stack e s.faults).1 (settle stack e s.faults).2.1 := by rwa [hset]
    exact hnames (occurs_settle hsettled)
  rw [hset] at hsettle
  obtain rfl : faults = found ++ s.faults := hsettle
  rcases acceptOperator_cases s goal stack e t with
    ⟨op, hop⟩ | hk | ⟨hk, rest, hrest⟩ | ⟨hk, hn⟩ | ⟨c, hc, he⟩
  · rw [acceptOperator_binary hop]
    exact of_mode hgoal rfl fun n hn => .inl (hreduce hn)
  · rw [acceptOperator_equal hk]
    exact of_mode hgoal rfl fun n hn => .inl (hreduce hn)
  · rw [hset] at hrest
    obtain rfl : stack' = .paren :: rest := hrest
    rw [acceptOperator_rightParen hk hset]
    refine .goesOn hgoal (goal?_deliver goal rest _) (fun n hn => .inl (hoccurs ?_)) found hfound
    rw [names_deliver] at hn
    exact hn
  · rw [hset] at hn
    rw [acceptOperator_semicolon hk hset hn]
    exact .ends hm (fun n hn => hoccurs (occurs_of_mem hn)) found hfound
  · rw [he, hset]
    exact .fails found hfound hc

theorem begin (h : s.StartsDeclaration t) : Course s t (s.begin t) := by
  rcases begin_cases s t with ⟨hk, he⟩ | ⟨-, he⟩ | ⟨-, he⟩ | ⟨-, body, outer, ho, he⟩ | he
  · rw [he]
    exact .keyword h hk
  · rw [he]
    exact .starts h (fun _ => rfl) rfl
  · rw [he]
    exact .opens h
  · rw [he]
    exact .closes h ho
  rw [he]
  -- an expression of its own defines nothing
  have hstarts {mode : Mode} (hmode : mode.goal? = some .effect) : Course s t { s with mode } :=
    .starts h (fun _ => rfl) hmode
  have hprimary (e : Expr) : Course s t { s with mode := deliver .effect [] e } :=
    hstarts (goal?_deliver .effect [] e)
  rcases acceptOperand_cases s .effect [] t with
    ⟨v, -, he⟩ | ⟨-, -, he⟩ | ⟨-, he⟩ | ⟨op, -, -, he⟩ | ⟨hk, -⟩ | he
  · rw [he]
    exact hprimary (.literal v)
  · rw [he]
    exact hprimary (.var t)
  · rw [he]
    exact hstarts rfl
  · rw [he]
    exact hstarts rfl
  · rw [acceptOperand_name hk rfl]
    exact hprimary (.var t)
  · rw [he]
    exact of_fail rfl

end Course

theorem course_accept (s : ParseState) (t : Token) : Course s t (s.accept t) := by
  cases h : s.discards t with
  | true =>
    rw [accept_of_discards h]
    exact .discarded h
  | false =>
    unfold accept
    cases hm : s.mode with
    | ready => exact .begin (.inl hm)
    | name =>
      by_cases hk : t.kind = .identifier
      · simp only [if_pos hk]
        exact .name hm hk
      · simp only [if_neg hk]
        exact .of_fail rfl
    | afterName name =>
      dsimp only
      split
      · next hk => exact .equals hm hk
      · exact .declares hm
      · exact .of_fail rfl
    | operand goal stack => exact .acceptOperand hm
    | operator goal stack e => exact .acceptOperator hm
    | skipping =>
      simp only [discards, hm, Bool.not_eq_false'] at h
      simp only [if_pos h]
      exact .begin (.inr ⟨hm, h⟩)
    | skippingNext => simp [discards, hm] at h

end ParseState
end BlockScript
