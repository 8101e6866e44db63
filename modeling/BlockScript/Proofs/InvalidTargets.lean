import BlockScript.Proofs.ProgramReading

/-!
# Assignments to something other than a name

The grammar lets any equality stand on the left of an assignment. What is read of a derivation is the tree of
the derivation in which each assignment to something other than a name is replaced by its left side. Each of
these assignments has an error at its `=`, and nothing else is an error.
-/
namespace BlockScript
namespace Grammar

/-- An assignment in a derivation: the tokens of its left side, and its `=` with the number of tokens before
it. -/
structure Assignment where
  target : List Token
  position : Nat
  equals : Terminal .equal

/-- Whether the tokens are a bare name. -/
def isName : List Token → Bool
  | [t] => t.kind = .identifier
  | _ => false

theorem isName_iff {tokens : List Token} :
    isName tokens = true ↔ ∃ name : Terminal .identifier, tokens = [name.1] := by
  constructor
  · intro h
    unfold isName at h
    split at h
    · next t => exact ⟨⟨t, of_decide_eq_true h⟩, rfl⟩
    · cases h
  · rintro ⟨name, rfl⟩
    exact decide_eq_true name.2

namespace Assignment

def toName (a : Assignment) : Bool := isName a.target

def fault (a : Assignment) : Fault := ⟨a.position, a.equals.1, .invalidTarget⟩

theorem error_fault (a : Assignment) :
    a.fault.error = ⟨a.equals.1.line, .atLexeme a.equals.1.lexeme, "Invalid assignment target."⟩ := by
  have hkind : a.equals.1.kind ≠ .eof := by simp [a.equals.2]
  rw [Fault.error, fault, SyntaxError.Location.ofToken, if_neg hkind]
  rfl

/-- Whether the left side and the `=` are among the tokens, which begin at the given position. -/
def IsIn (a : Assignment) (start : Nat) (tokens : List Token) : Prop :=
  ∃ before after, tokens = before ++ a.target ++ a.equals.1 :: after ∧
    a.position = start + (before ++ a.target).length

namespace IsIn
variable {a : Assignment} {start : Nat} {tokens : List Token}

theorem append (h : a.IsIn start tokens) (more : List Token) : a.IsIn start (tokens ++ more) := by
  obtain ⟨before, after, rfl, hposition⟩ := h
  exact ⟨before, after ++ more, by simp, hposition⟩

theorem prepend (more : List Token) (h : a.IsIn (start + more.length) tokens) :
    a.IsIn start (more ++ tokens) := by
  obtain ⟨before, after, rfl, hposition⟩ := h
  refine ⟨more ++ before, after, by simp, ?_⟩
  rw [hposition, Nat.add_assoc, ← List.length_append, List.append_assoc]

end IsIn
end Assignment

variable {c : Category} {height : Nat}

mutual

/-- The assignments of a phrase that begins at the given position. Those in the sides of an assignment come
before it. -/
def Phrase.assignments {c : Category} (position : Nat) : Phrase c → List Assignment
  | .constant _ _ _ | .name _ => []
  | .paren _ inner _ => inner.assignments (position + 1)
  | .plain operand => operand.assignments position
  | .signed _ _ _ operand => operand.assignments (position + 1)
  | .chain first links =>
    first.assignments position ++ links.assignments (position + first.tokens.length)
  | .value e => e.assignments position
  | .assign target equals value =>
    target.assignments position ++ value.assignments (position + target.tokens.length + 1) ++
      [⟨target.tokens, position + target.tokens.length, equals⟩]

def Links.assignments {height : Nat} (position : Nat) : Links height → List Assignment
  | .nil => []
  | .cons _ _ _ _ right rest =>
    right.assignments (position + 1) ++ rest.assignments (position + 1 + right.tokens.length)

end

mutual

/-- The phrase in which each assignment to something other than a name is replaced by its left side. -/
def Phrase.prune {c : Category} : Phrase c → Phrase c
  | .constant t value h => .constant t value h
  | .name t => .name t
  | .paren opening inner closing => .paren opening inner.prune closing
  | .plain operand => .plain operand.prune
  | .signed t op h operand => .signed t op h operand.prune
  | .chain first links => .chain first.prune links.prune
  | .value e => .value e.prune
  | .assign target equals value =>
    if isName target.tokens then .assign target equals value.prune else .value target.prune

def Links.prune {height : Nat} : Links height → Links height
  | .nil => .nil
  | .cons t op h hl right rest => .cons t op h hl right.prune rest.prune

end

namespace Declaration

mutual

/-- The assignments of a declaration that begins at the given position. -/
def assignments (position : Nat) : Declaration → List Assignment
  | .declare _ _ _ => []
  | .define _ _ _ value _ => value.assignments (position + 3)
  | .print _ value _ => value.assignments (position + 1)
  | .effect value _ => value.assignments position
  | .block _ body _ => assignmentsOfAll (position + 1) body

def assignmentsOfAll (position : Nat) : List Declaration → List Assignment
  | [] => []
  | d :: rest => d.assignments position ++ assignmentsOfAll (position + d.tokens.length) rest

end

mutual

def prune : Declaration → Declaration
  | .declare keyword name semicolon => .declare keyword name semicolon
  | .define keyword name equals value semicolon => .define keyword name equals value.prune semicolon
  | .print keyword value semicolon => .print keyword value.prune semicolon
  | .effect value semicolon => .effect value.prune semicolon
  | .block opening body closing => .block opening (pruneAll body) closing

def pruneAll : List Declaration → List Declaration
  | [] => []
  | d :: rest => d.prune :: pruneAll rest

end

end Declaration

/-! ### Faults -/

/-- The faults of the assignments that are not to a name. -/
def invalid (assignments : List Assignment) : List Fault :=
  (assignments.filter fun a => !a.toName).map Assignment.fault

theorem invalid_append (as as' : List Assignment) : invalid (as ++ as') = invalid as ++ invalid as' := by
  rw [invalid, List.filter_append, List.map_append]
  rfl

section Target
variable {target : Phrase (.chain height)}

/-- A left side that is not a name does not read as one either. -/
theorem tree_ne_var (h : ¬ isName target.tokens = true) (name : Token) : target.tree ≠ .var name := by
  intro he
  obtain ⟨htokens, hkind⟩ := target.tokens_of_tree_eq_var he
  exact h (isName_iff.2 ⟨⟨name, hkind⟩, htokens⟩)

theorem invalid_target (position : Nat) (equals : Terminal .equal) :
    targetFaults target.tree position equals.1 = invalid [⟨target.tokens, position, equals⟩] := by
  have htoName : (Assignment.mk target.tokens position equals).toName = isName target.tokens := rfl
  by_cases h : isName target.tokens = true
  · obtain ⟨name, hname⟩ := isName_iff.1 h
    rw [(target.tree_of_tokens_eq_name hname).1, invalid, List.filter_cons_of_neg (by simp [htoName, h])]
    rfl
  · rw [invalid, List.filter_cons_of_pos (by simp [htoName, h])]
    unfold targetFaults
    split
    · next name he => exact absurd he (tree_ne_var h name)
    · rfl

theorem assignment_of_ne_name (h : ¬ isName target.tokens = true) (value : Expr) :
    assignment target.tree value = target.tree := by
  unfold assignment
  split
  · next name he => exact absurd he (tree_ne_var h name)
  · rfl

end Target

mutual

theorem Phrase.faults_eq_invalid : {c : Category} → (p : Phrase c) → (position : Nat) →
    p.faults position = invalid (p.assignments position)
  | _, .constant _ _ _, _ | _, .name _, _ => rfl
  | _, .paren _ inner _, position => inner.faults_eq_invalid (position + 1)
  | _, .plain operand, position => operand.faults_eq_invalid position
  | _, .signed _ _ _ operand, position => operand.faults_eq_invalid (position + 1)
  | _, .chain first links, position => by
    rw [Phrase.faults, Phrase.assignments, invalid_append, first.faults_eq_invalid, links.faults_eq_invalid]
  | _, .value e, position => e.faults_eq_invalid position
  | _, .assign target equals value, position => by
    rw [Phrase.faults, Phrase.assignments, invalid_append, invalid_append, target.faults_eq_invalid,
      value.faults_eq_invalid, invalid_target]

theorem Links.faults_eq_invalid : {height : Nat} → (links : Links height) → (position : Nat) →
    links.faults position = invalid (links.assignments position)
  | _, .nil, _ => rfl
  | _, .cons _ _ _ _ right rest, position => by
    rw [Links.faults, Links.assignments, invalid_append, right.faults_eq_invalid, rest.faults_eq_invalid]

end

/-! ### Trees -/

mutual

theorem Phrase.tree_prune : {c : Category} → (p : Phrase c) → p.prune.tree = p.tree
  | _, .constant _ _ _ | _, .name _ => rfl
  | _, .paren _ inner _ => congrArg Expr.grouping inner.tree_prune
  | _, .plain operand => operand.tree_prune
  | _, .signed t op _ operand => congrArg (Expr.unary op t.line) operand.tree_prune
  | _, .chain first links => by rw [Phrase.prune, Phrase.tree, first.tree_prune, links.tree_prune, Phrase.tree]
  | _, .value e => e.tree_prune
  | _, .assign target equals value => by
    rw [Phrase.prune]
    split
    · rw [Phrase.tree, value.tree_prune, Phrase.tree]
    · next h => rw [Phrase.tree, target.tree_prune, Phrase.tree, assignment_of_ne_name h]

theorem Links.tree_prune : {height : Nat} → (links : Links height) → (left : Expr) →
    links.prune.tree left = links.tree left
  | _, .nil, _ => rfl
  | _, .cons t op _ _ right rest, left => by
    rw [Links.prune, Links.tree, right.tree_prune, rest.tree_prune, Links.tree]

end

mutual

theorem Phrase.assignsNames_prune : {c : Category} → (p : Phrase c) → p.prune.AssignsNames
  | _, .constant _ _ _ | _, .name _ => trivial
  | _, .paren _ inner _ => inner.assignsNames_prune
  | _, .plain operand => operand.assignsNames_prune
  | _, .signed _ _ _ operand => operand.assignsNames_prune
  | _, .chain first links => ⟨first.assignsNames_prune, links.assignNames_prune⟩
  | _, .value e => e.assignsNames_prune
  | _, .assign target equals value => by
    rw [Phrase.prune]
    split
    · next h => exact ⟨isName_iff.1 h, value.assignsNames_prune⟩
    · exact target.assignsNames_prune

theorem Links.assignNames_prune : {height : Nat} → (links : Links height) → links.prune.AssignNames
  | _, .nil => trivial
  | _, .cons _ _ _ _ right rest => ⟨right.assignsNames_prune, rest.assignNames_prune⟩

end

/-! ### Positions -/

mutual

theorem Phrase.isIn_tokens {a : Assignment} : {c : Category} → (p : Phrase c) → (position : Nat) →
    a ∈ p.assignments position → a.IsIn position p.tokens
  | _, .constant _ _ _, _, ha | _, .name _, _, ha => absurd ha List.not_mem_nil
  | _, .paren opening inner closing, position, ha =>
    ((inner.isIn_tokens (position + 1) ha).append [closing.1]).prepend [opening.1]
  | _, .plain operand, position, ha => operand.isIn_tokens position ha
  | _, .signed t _ _ operand, position, ha => (operand.isIn_tokens (position + 1) ha).prepend [t]
  | _, .chain first links, position, ha => by
    rcases List.mem_append.1 ha with ha | ha
    · exact (first.isIn_tokens position ha).append links.tokens
    · exact (links.isIn_tokens _ ha).prepend first.tokens
  | _, .value e, position, ha => e.isIn_tokens position ha
  | _, .assign target equals value, position, ha => by
    have hlength : (target.tokens ++ [equals.1]).length = target.tokens.length + 1 := List.length_append
    have htokens :
        (Phrase.assign target equals value).tokens = target.tokens ++ [equals.1] ++ value.tokens := by
      simp [Phrase.tokens]
    rcases List.mem_append.1 ha with ha | ha
    · rcases List.mem_append.1 ha with ha | ha
      · exact (target.isIn_tokens position ha).append (equals.1 :: value.tokens)
      · rw [htokens]
        refine (value.isIn_tokens (position + (target.tokens ++ [equals.1]).length) ?_).prepend _
        rwa [hlength]
    · obtain rfl := List.mem_singleton.1 ha
      exact ⟨[], value.tokens, rfl, rfl⟩

theorem Links.isIn_tokens {a : Assignment} : {height : Nat} → (links : Links height) → (position : Nat) →
    a ∈ links.assignments position → a.IsIn position links.tokens
  | _, .nil, _, ha => absurd ha List.not_mem_nil
  | _, .cons t _ _ _ right rest, position, ha => by
    rcases List.mem_append.1 ha with ha | ha
    · exact ((right.isIn_tokens (position + 1) ha).append rest.tokens).prepend [t]
    · exact ((rest.isIn_tokens _ ha).prepend right.tokens).prepend [t]

end

namespace Declaration

mutual

theorem faults_eq_invalid : (d : Declaration) → (position : Nat) →
    d.faults position = invalid (d.assignments position)
  | .declare _ _ _, _ => rfl
  | .define _ _ _ value _, position => value.faults_eq_invalid (position + 3)
  | .print _ value _, position => value.faults_eq_invalid (position + 1)
  | .effect value _, position => value.faults_eq_invalid position
  | .block _ body _, position => faultsOfAll_eq_invalid body (position + 1)

theorem faultsOfAll_eq_invalid : (ds : List Declaration) → (position : Nat) →
    faultsOfAll position ds = invalid (assignmentsOfAll position ds)
  | [], _ => rfl
  | d :: rest, position => by
    rw [faultsOfAll, assignmentsOfAll, invalid_append, d.faults_eq_invalid, faultsOfAll_eq_invalid rest]

end

mutual

theorem statement_prune : (d : Declaration) → d.prune.statement = d.statement
  | .declare _ _ _ => rfl
  | .define _ name _ value _ => congrArg (fun e => Stmt.declare name.1 (some e)) value.tree_prune
  | .print keyword value _ => congrArg (Stmt.print · keyword.1.line) value.tree_prune
  | .effect value _ => congrArg Stmt.expr value.tree_prune
  | .block _ body _ => congrArg Stmt.block (statementsOfAll_pruneAll body)

theorem statementsOfAll_pruneAll : (ds : List Declaration) → statementsOfAll (pruneAll ds) = statementsOfAll ds
  | [] => rfl
  | d :: rest => by
    rw [pruneAll, statementsOfAll, d.statement_prune, statementsOfAll_pruneAll rest, statementsOfAll]

end

mutual

theorem assignsNames_prune : (d : Declaration) → d.prune.AssignsNames
  | .declare _ _ _ => trivial
  | .define _ _ _ value _ => value.assignsNames_prune
  | .print _ value _ => value.assignsNames_prune
  | .effect value _ => value.assignsNames_prune
  | .block _ body _ => allAssignNames_pruneAll body

theorem allAssignNames_pruneAll : (ds : List Declaration) → AllAssignNames (pruneAll ds)
  | [] => trivial
  | d :: rest => ⟨d.assignsNames_prune, allAssignNames_pruneAll rest⟩

end

mutual

theorem isIn_tokens {a : Assignment} : (d : Declaration) → (position : Nat) →
    a ∈ d.assignments position → a.IsIn position d.tokens
  | .declare _ _ _, _, ha => absurd ha List.not_mem_nil
  | .define keyword name equals value semicolon, position, ha => by
    have hvalue := (value.isIn_tokens (position + 3) ha).append [semicolon.1]
    exact hvalue.prepend [keyword.1, name.1, equals.1]
  | .print keyword value semicolon, position, ha => by
    have hvalue := (value.isIn_tokens (position + 1) ha).append [semicolon.1]
    exact hvalue.prepend [keyword.1]
  | .effect value semicolon, position, ha => (value.isIn_tokens position ha).append [semicolon.1]
  | .block opening body closing, position, ha => by
    have hbody := (isIn_tokensOfAll body (position + 1) ha).append [closing.1]
    exact hbody.prepend [opening.1]

theorem isIn_tokensOfAll {a : Assignment} : (ds : List Declaration) → (position : Nat) →
    a ∈ assignmentsOfAll position ds → a.IsIn position (tokensOfAll ds)
  | [], _, ha => absurd ha List.not_mem_nil
  | d :: rest, position, ha => by
    rcases List.mem_append.1 ha with ha | ha
    · exact (d.isIn_tokens position ha).append (tokensOfAll rest)
    · exact (isIn_tokensOfAll rest _ ha).prepend d.tokens

end

theorem statementsOfAll_eq_map (ds : List Declaration) : statementsOfAll ds = ds.map statement := by
  induction ds with
  | nil => rfl
  | cons d rest ih => rw [statementsOfAll, ih, List.map_cons]

end Declaration
end Grammar

namespace Parsed
open Grammar

theorem program_isOk_iff (p : Parsed) : (∃ statements, p.program = .ok statements) ↔ p.faults = [] := by
  rw [program, errors]
  cases p.faults with
  | nil => exact ⟨fun _ => rfl, fun _ => ⟨p.statements, rfl⟩⟩
  | cons f rest =>
    constructor
    · rintro ⟨statements, h⟩
      cases h
    · intro h
      cases h

theorem invalid_eq_nil_iff (assignments : List Assignment) :
    invalid assignments = [] ↔ ∀ a ∈ assignments, a.toName = true := by
  simp [invalid]

/-- The tokens of a derivation without self-references in initializers give one statement for each
declaration, also inside blocks. It is the one derived when each assignment to something other than a name is
replaced by its left side; no such assignment is left then. Each of them has an error at its `=`, after the
errors in its sides and otherwise from left to right, and there is no other error. So the tokens are accepted
just if all assignments are to names. -/
theorem ofTokens_prune {tokens : List Token} {ds : List Declaration}
    (h : Declaration.tokensOfAll ds = input tokens) (hg : Declaration.GuardedAll ds) :
    let assignments := Declaration.assignmentsOfAll 0 ds
    let invalid := assignments.filter fun a => !a.toName
    (ofTokens tokens).statements = ds.map (fun d => d.prune.statement) ∧
      Declaration.AllAssignNames (Declaration.pruneAll ds) ∧
      (∀ a ∈ assignments, a.IsIn 0 (input tokens)) ∧
      (ofTokens tokens).faults = invalid.map (fun a => ⟨a.position, a.equals.1, .invalidTarget⟩) ∧
      (ofTokens tokens).errors =
        invalid.map (fun a => ⟨a.equals.1.line, .atLexeme a.equals.1.lexeme, "Invalid assignment target."⟩) ∧
      ((∃ statements, (ofTokens tokens).program = .ok statements) ↔ ∀ a ∈ assignments, a.toName = true) := by
  intro assignments invalid
  have hread := ofTokens_of_derivation h hg
  rw [Declaration.faultsOfAll_eq_invalid] at hread
  refine ⟨?_, Declaration.allAssignNames_pruneAll ds, fun a ha => ?_, ?_, ?_, ?_⟩
  · rw [hread, Declaration.statementsOfAll_eq_map]
    exact List.map_congr_left fun d _ => d.statement_prune.symm
  · rw [← h]
    exact Declaration.isIn_tokensOfAll ds 0 ha
  · rw [hread]
    rfl
  · rw [errors, hread]
    change (invalid.map Assignment.fault).map Fault.error = _
    rw [List.map_map]
    exact List.map_congr_left fun a _ => a.error_fault
  · rw [program_isOk_iff, hread]
    exact invalid_eq_nil_iff assignments

/-- In the block `{ a + a = b = (c) = nil; }` the inner fault is found first, and of the statement `a + a`
remains. -/
theorem ofTokens_prune_chain :
    let a : Terminal .identifier := ⟨⟨.identifier, "a", none, 1⟩, rfl⟩
    let b : Terminal .identifier := ⟨⟨.identifier, "b", none, 1⟩, rfl⟩
    let c : Terminal .identifier := ⟨⟨.identifier, "c", none, 1⟩, rfl⟩
    let equals (line : UInt32) : Token := ⟨.equal, "=", none, line⟩
    let plus : Token := ⟨.plus, "+", none, 1⟩
    let opening : Token := ⟨.leftParen, "(", none, 1⟩
    let closing : Token := ⟨.rightParen, ")", none, 1⟩
    let leftBrace : Token := ⟨.leftBrace, "", none, 1⟩
    let rightBrace : Token := ⟨.rightBrace, "", none, 1⟩
    let nil : Token := ⟨.nilKw, "nil", none, 1⟩
    let semicolon : Token := ⟨.semicolon, ";", none, 1⟩
    let tokens : List Token :=
      [leftBrace, a.1, plus, a.1, equals 1, b.1, equals 2, opening, c.1, closing, equals 3, nil, semicolon,
        rightBrace]
    (ofTokens tokens).statements = [.block [.expr (.binary (.var a.1) .add 1 (.var a.1))]] ∧
      (ofTokens tokens).errors =
        [⟨3, .atLexeme "=", "Invalid assignment target."⟩,
          ⟨1, .atLexeme "=", "Invalid assignment target."⟩] := by
  intro a b c equals plus opening closing leftBrace rightBrace nil semicolon tokens
  let whole (p : Phrase .primary) : Phrase (.chain 4) :=
    .chain (.chain (.chain (.chain (.plain p) .nil) .nil) .nil) .nil
  let product : Phrase (.chain 1) := .chain (.plain (.name a)) .nil
  let sum : Phrase (.chain 4) :=
    .chain (.chain (.chain product (.cons plus .add rfl rfl product .nil)) .nil) .nil
  let inner : Phrase .expression :=
    .assign (whole (.paren ⟨opening, rfl⟩ (.value (whole (.name c))) ⟨closing, rfl⟩)) ⟨equals 3, rfl⟩
      (.value (whole (.constant nil .nil rfl)))
  let middle : Phrase .expression := .assign (whole (.name b)) ⟨equals 2, rfl⟩ inner
  let outer : Phrase .expression := .assign sum ⟨equals 1, rfl⟩ middle
  let ds : List Declaration :=
    [.block ⟨leftBrace, rfl⟩ [.effect outer ⟨semicolon, rfl⟩] ⟨rightBrace, rfl⟩]
  have h : Declaration.tokensOfAll ds = input tokens := by cbv
  have hg : Declaration.GuardedAll ds := ⟨⟨trivial, trivial⟩, trivial⟩
  obtain ⟨hstatements, -, -, -, herrors, -⟩ := ofTokens_prune h hg
  rw [hstatements, herrors]
  constructor <;> cbv

end Parsed
end BlockScript
