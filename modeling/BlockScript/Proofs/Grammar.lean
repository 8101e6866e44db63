import BlockScript.Parsed

/-!
# Derivations of the grammar

A derivation is a tree with one constructor for each alternative of the grammar, taken literally:
anything that is an equality may stand on the left of an assignment. Chains of binary operators are
graded by height, the number of levels of operators that they may contain outside parentheses.
Height 0 is a unary, height 1 a product, height 2 a sum, height 3 a comparison, height 4 an equality.
-/
namespace BlockScript

/-- The value of a token that is a primary expression by itself. -/
def Token.constant? (t : Token) : Option Value :=
  match t.kind with
  | .falseKw => some (.bool false)
  | .trueKw => some (.bool true)
  | .nilKw => some .nil
  | .number | .string => t.literal
  | _ => none

namespace Grammar

inductive Category where
  | expression
  | chain (height : Nat)
  | primary

/-- A token of the given kind. -/
abbrev Terminal (kind : Token.Kind) := {t : Token // t.kind = kind}

mutual

/-- A derivation of an expression of the given category. -/
inductive Phrase : Category → Type where
  | constant (t : Token) (value : Value) (h : t.constant? = some value) : Phrase .primary
  | name (t : Terminal .identifier) : Phrase .primary
  | paren (opening : Terminal .leftParen) (inner : Phrase .expression)
      (closing : Terminal .rightParen) : Phrase .primary
  | plain (operand : Phrase .primary) : Phrase (.chain 0)
  | signed (t : Token) (op : UnaryOp) (h : UnaryOp.ofKind? t.kind = some op)
      (operand : Phrase .primary) : Phrase (.chain 0)
  | chain {height : Nat} (first : Phrase (.chain height)) (links : Links height) :
      Phrase (.chain (height + 1))
  | value (e : Phrase (.chain 4)) : Phrase .expression
  | assign (target : Phrase (.chain 4)) (equals : Terminal .equal) (value : Phrase .expression) :
      Phrase .expression

/-- The operators of a chain after its first operand, each with its right operand. -/
inductive Links : Nat → Type where
  | nil {height : Nat} : Links height
  | cons {height : Nat} (t : Token) (op : BinaryOp) (h : BinaryOp.ofKind? t.kind = some op)
      (hl : op.level + height = 3) (right : Phrase (.chain height)) (rest : Links height) :
      Links height

end

variable {c : Category} {height : Nat}

mutual

/-- The tokens that are derived, in order. -/
def Phrase.tokens {c : Category} : Phrase c → List Token
  | .constant t _ _ => [t]
  | .name t => [t.1]
  | .paren opening inner closing => opening.1 :: (inner.tokens ++ [closing.1])
  | .plain operand => operand.tokens
  | .signed t _ _ operand => t :: operand.tokens
  | .chain first links => first.tokens ++ links.tokens
  | .value e => e.tokens
  | .assign target equals value => target.tokens ++ equals.1 :: value.tokens

def Links.tokens {height : Nat} : Links height → List Token
  | .nil => []
  | .cons t _ _ _ right rest => t :: (right.tokens ++ rest.tokens)

end

/-- An assignment, or its left side if that is not a name. -/
def assignment (target value : Expr) : Expr :=
  match target with
  | .var name => .assign name value
  | target => target

mutual

/-- The expression that is derived. -/
def Phrase.tree {c : Category} : Phrase c → Expr
  | .constant _ value _ => .literal value
  | .name t => .var t.1
  | .paren _ inner _ => .grouping inner.tree
  | .plain operand => operand.tree
  | .signed t op _ operand => .unary op t.line operand.tree
  | .chain first links => links.tree first.tree
  | .value e => e.tree
  | .assign target _ value => assignment target.tree value.tree

/-- The expression that the links make of their left operand; they group to the left. -/
def Links.tree {height : Nat} : Links height → Expr → Expr
  | .nil, left => left
  | .cons t op _ _ right rest, left => rest.tree (.binary left op t.line right.tree)

end

/-- The fault of an assignment to the given target. -/
def targetFaults (target : Expr) (position : Nat) (equals : Token) : List Fault :=
  match target with
  | .var _ => []
  | _ => [⟨position, equals, .invalidTarget⟩]

mutual

/-- The faults of a phrase that begins at the given position, those inside an assignment first. -/
def Phrase.faults {c : Category} (position : Nat) : Phrase c → List Fault
  | .constant _ _ _ | .name _ => []
  | .paren _ inner _ => inner.faults (position + 1)
  | .plain operand => operand.faults position
  | .signed _ _ _ operand => operand.faults (position + 1)
  | .chain first links =>
    first.faults position ++ links.faults (position + first.tokens.length)
  | .value e => e.faults position
  | .assign target equals value =>
    target.faults position ++ value.faults (position + target.tokens.length + 1) ++
      targetFaults target.tree (position + target.tokens.length) equals.1

def Links.faults {height : Nat} (position : Nat) : Links height → List Fault
  | .nil => []
  | .cons _ _ _ _ right rest =>
    right.faults (position + 1) ++ rest.faults (position + 1 + right.tokens.length)

end

mutual

/-- Whether every assignment is to a bare name. -/
def Phrase.AssignsNames {c : Category} : Phrase c → Prop
  | .constant _ _ _ | .name _ => True
  | .paren _ inner _ => inner.AssignsNames
  | .plain operand => operand.AssignsNames
  | .signed _ _ _ operand => operand.AssignsNames
  | .chain first links => first.AssignsNames ∧ links.AssignNames
  | .value e => e.AssignsNames
  | .assign target _ value =>
    (∃ name : Terminal .identifier, target.tokens = [name.1]) ∧ value.AssignsNames

def Links.AssignNames {height : Nat} : Links height → Prop
  | .nil => True
  | .cons _ _ _ _ right rest => right.AssignsNames ∧ rest.AssignNames

end

/-- Whether no identifier of the phrase has the given text. -/
def Phrase.Avoids (name : String) (p : Phrase c) : Prop :=
  ∀ t ∈ p.tokens, t.kind = .identifier → t.lexeme ≠ name

/-- A derivation of a declaration, with or without an initializer, or of a statement. -/
inductive Declaration where
  | declare (keyword : Terminal .varKw) (name : Terminal .identifier)
      (semicolon : Terminal .semicolon)
  | define (keyword : Terminal .varKw) (name : Terminal .identifier) (equals : Terminal .equal)
      (value : Phrase .expression) (semicolon : Terminal .semicolon)
  | print (keyword : Terminal .printKw) (value : Phrase .expression)
      (semicolon : Terminal .semicolon)
  | block (opening : Terminal .leftBrace) (body : List Declaration)
      (closing : Terminal .rightBrace)
  | effect (value : Phrase .expression) (semicolon : Terminal .semicolon)

namespace Declaration

mutual

def tokens : Declaration → List Token
  | .declare keyword name semicolon => [keyword.1, name.1, semicolon.1]
  | .define keyword name equals value semicolon =>
    keyword.1 :: name.1 :: equals.1 :: (value.tokens ++ [semicolon.1])
  | .print keyword value semicolon => keyword.1 :: (value.tokens ++ [semicolon.1])
  | .block opening body closing => opening.1 :: (tokensOfAll body ++ [closing.1])
  | .effect value semicolon => value.tokens ++ [semicolon.1]

def tokensOfAll : List Declaration → List Token
  | [] => []
  | d :: rest => d.tokens ++ tokensOfAll rest

end

mutual

def statement : Declaration → Stmt
  | .declare _ name _ => .declare name.1 none
  | .define _ name _ value _ => .declare name.1 (some value.tree)
  | .print keyword value _ => .print value.tree keyword.1.line
  | .block _ body _ => .block (statementsOfAll body)
  | .effect value _ => .expr value.tree

def statementsOfAll : List Declaration → List Stmt
  | [] => []
  | d :: rest => d.statement :: statementsOfAll rest

end

mutual

/-- Whether no initializer contains the name that it is for. -/
def Guarded : Declaration → Prop
  | .declare _ _ _ => True
  | .define _ name _ value _ => value.Avoids name.1.lexeme
  | .print _ _ _ | .effect _ _ => True
  | .block _ body _ => GuardedAll body

def GuardedAll : List Declaration → Prop
  | [] => True
  | d :: rest => d.Guarded ∧ GuardedAll rest

end

mutual

/-- Whether every assignment is to a bare name. -/
def AssignsNames : Declaration → Prop
  | .declare _ _ _ => True
  | .define _ _ _ value _ => value.AssignsNames
  | .print _ value _ => value.AssignsNames
  | .effect value _ => value.AssignsNames
  | .block _ body _ => AllAssignNames body

def AllAssignNames : List Declaration → Prop
  | [] => True
  | d :: rest => d.AssignsNames ∧ AllAssignNames rest

end

mutual

/-- The faults of a declaration that begins at the given position. -/
def faults (position : Nat) : Declaration → List Fault
  | .declare _ _ _ => []
  | .define _ _ _ value _ => value.faults (position + 3)
  | .print _ value _ => value.faults (position + 1)
  | .effect value _ => value.faults position
  | .block _ body _ => faultsOfAll (position + 1) body

def faultsOfAll (position : Nat) : List Declaration → List Fault
  | [] => []
  | d :: rest => d.faults position ++ faultsOfAll (position + d.tokens.length) rest

end

theorem tokensOfAll_append (ds ds' : List Declaration) :
    tokensOfAll (ds ++ ds') = tokensOfAll ds ++ tokensOfAll ds' := by
  induction ds with
  | nil => rfl
  | cons d ds ih => simp [tokensOfAll, ih]

theorem statementsOfAll_append (ds ds' : List Declaration) :
    statementsOfAll (ds ++ ds') = statementsOfAll ds ++ statementsOfAll ds' := by
  induction ds with
  | nil => rfl
  | cons d ds ih => simp [statementsOfAll, ih]

theorem guardedAll_append (ds ds' : List Declaration) :
    GuardedAll (ds ++ ds') ↔ GuardedAll ds ∧ GuardedAll ds' := by
  induction ds with
  | nil => simp [GuardedAll]
  | cons d ds ih => simp [GuardedAll, ih, and_assoc]

theorem allAssignNames_append (ds ds' : List Declaration) :
    AllAssignNames (ds ++ ds') ↔ AllAssignNames ds ∧ AllAssignNames ds' := by
  induction ds with
  | nil => simp [AllAssignNames]
  | cons d ds ih => simp [AllAssignNames, ih, and_assoc]

end Declaration

/-! ### First tokens -/

/-- Whether a primary expression can begin with the token. -/
def BeginsPrimary (t : Token) : Prop :=
  t.constant?.isSome ∨ t.kind = .identifier ∨ t.kind = .leftParen

/-- Whether an expression can begin with the token. -/
def BeginsExpression (t : Token) : Prop :=
  BeginsPrimary t ∨ (UnaryOp.ofKind? t.kind).isSome

theorem Phrase.primary_begins (p : Phrase .primary) :
    ∃ t rest, p.tokens = t :: rest ∧ BeginsPrimary t := by
  cases p with
  | constant t v h => exact ⟨t, [], rfl, .inl (by simp [h])⟩
  | name t => exact ⟨t.1, [], rfl, .inr (.inl t.2)⟩
  | paren opening inner closing => exact ⟨opening.1, _, rfl, .inr (.inr opening.2)⟩

theorem Phrase.begins : {c : Category} → (p : Phrase c) →
    ∃ t rest, p.tokens = t :: rest ∧ BeginsExpression t
  | _, .constant t v h => ⟨t, [], rfl, .inl (.inl (by simp [h]))⟩
  | _, .name t => ⟨t.1, [], rfl, .inl (.inr (.inl t.2))⟩
  | _, .paren opening _ _ => ⟨opening.1, _, rfl, .inl (.inr (.inr opening.2))⟩
  | _, .plain operand => operand.begins
  | _, .signed t op h operand => ⟨t, operand.tokens, rfl, .inr (by simp [h])⟩
  | _, .chain first links => by
    obtain ⟨t, rest, h, hb⟩ := first.begins
    exact ⟨t, rest ++ links.tokens, by rw [tokens, h, List.cons_append], hb⟩
  | _, .value e => e.begins
  | _, .assign target equals e => by
    obtain ⟨t, rest, h, hb⟩ := target.begins
    exact ⟨t, rest ++ equals.1 :: e.tokens, by rw [tokens, h, List.cons_append], hb⟩

theorem Phrase.tokens_ne_nil (p : Phrase c) : p.tokens ≠ [] := by
  obtain ⟨t, rest, h, -⟩ := p.begins
  simp [h]

/-! ### Bare names -/

theorem Links.tree_binary (links : Links height) (left right : Expr) (op : BinaryOp) (line : UInt32) :
    ∃ left' op' line' right', links.tree (.binary left op line right) = .binary left' op' line' right' := by
  match links with
  | .nil => exact ⟨left, op, line, right, rfl⟩
  | .cons _ op' _ _ right' rest => exact rest.tree_binary _ _ op' _

/-- A chain that reads as a name is no more than that name. -/
theorem Phrase.tokens_of_tree_eq_var {name : Token} {height : Nat} (p : Phrase (.chain height))
    (h : p.tree = .var name) : p.tokens = [name] ∧ name.kind = .identifier := by
  induction height with
  | zero =>
    cases p with
    | plain operand =>
      cases operand with
      | constant t v ht => cases h
      | name t =>
        cases h
        exact ⟨rfl, t.2⟩
      | paren opening inner closing => cases h
    | signed t op ht operand => cases h
  | succ height ih =>
    cases p with
    | chain first links =>
      cases links with
      | nil =>
        have hf := ih first h
        simpa [tokens, Links.tokens] using hf
      | cons t op ht hl right rest =>
        obtain ⟨left', op', line', right', he⟩ := rest.tree_binary first.tree right.tree op t.line
        cases he.symm.trans h

theorem Phrase.tree_of_tokens_eq_name {name : Terminal .identifier} {height : Nat}
    (p : Phrase (.chain height)) (h : p.tokens = [name.1]) :
    p.tree = .var name.1 ∧ ∀ position, p.faults position = [] := by
  induction height with
  | zero =>
    cases p with
    | plain operand =>
      cases operand with
      | constant t v ht =>
        obtain rfl : t = name.1 := by simpa [tokens] using h
        simp [Token.constant?, name.2] at ht
      | name t =>
        obtain ht : t.1 = name.1 := by simpa [tokens] using h
        exact ⟨congrArg Expr.var ht, fun _ => rfl⟩
      | paren opening inner closing => simp [tokens] at h
    | signed t op ht operand =>
      rw [tokens, List.cons.injEq] at h
      exact absurd h.2 operand.tokens_ne_nil
  | succ height ih =>
    cases p with
    | chain first links =>
      cases links with
      | nil =>
        rw [tokens, Links.tokens, List.append_nil] at h
        obtain ⟨hv, hf⟩ := ih first h
        refine ⟨hv, fun position => ?_⟩
        rw [faults, hf, Links.faults, List.append_nil]
      | cons t op ht hl right rest =>
        obtain ⟨t', rest', h', -⟩ := first.begins
        rw [tokens, Links.tokens, h', List.cons_append, List.cons.injEq] at h
        simp at h

mutual

theorem Phrase.faults_eq_nil : {c : Category} → (p : Phrase c) → p.AssignsNames →
    ∀ position, p.faults position = []
  | _, .constant _ _ _, _, _ => rfl
  | _, .name _, _, _ => rfl
  | _, .paren _ inner _, h, position => inner.faults_eq_nil h (position + 1)
  | _, .plain operand, h, position => operand.faults_eq_nil h position
  | _, .signed _ _ _ operand, h, position => operand.faults_eq_nil h (position + 1)
  | _, .chain first links, h, position => by
    rw [Phrase.faults, first.faults_eq_nil h.1, links.faults_eq_nil h.2, List.append_nil]
  | _, .value e, h, position => e.faults_eq_nil h position
  | _, .assign target equals value, ⟨⟨name, hn⟩, hv⟩, position => by
    obtain ⟨ht, hf⟩ := target.tree_of_tokens_eq_name hn
    rw [Phrase.faults, hf, value.faults_eq_nil hv, ht]
    rfl

theorem Links.faults_eq_nil : {height : Nat} → (links : Links height) → links.AssignNames →
    ∀ position, links.faults position = []
  | _, .nil, _, _ => rfl
  | _, .cons _ _ _ _ right rest, h, position => by
    rw [Links.faults, right.faults_eq_nil h.1, rest.faults_eq_nil h.2, List.append_nil]

end

namespace Declaration

mutual

theorem faults_eq_nil : (d : Declaration) → d.AssignsNames → ∀ position, d.faults position = []
  | .declare _ _ _, _, _ => rfl
  | .define _ _ _ value _, h, position => value.faults_eq_nil h (position + 3)
  | .print _ value _, h, position => value.faults_eq_nil h (position + 1)
  | .effect value _, h, position => value.faults_eq_nil h position
  | .block _ body _, h, position => faultsOfAll_eq_nil body h (position + 1)

theorem faultsOfAll_eq_nil : (ds : List Declaration) → AllAssignNames ds →
    ∀ position, faultsOfAll position ds = []
  | [], _, _ => rfl
  | d :: rest, h, position => by
    rw [faultsOfAll, d.faults_eq_nil h.1, faultsOfAll_eq_nil rest h.2, List.append_nil]

end

end Declaration
end Grammar
end BlockScript
