import BlockScript.Proofs.SourceReading
import BlockScript.Proofs.Simulation

/-!
# Programs further down

A text that begins some lines later is scanned as the same tokens on later lines, parsed as the same
statements on later lines, and runs in the same way.
-/
namespace BlockScript
open Grammar

def Token.shift (d : UInt32) (t : Token) : Token := { t with line := t.line + d }

/-- The change of a program that is moved down by some lines. -/
def Relabeling.shift (d : UInt32) : Relabeling := ⟨Token.shift d, (· + d)⟩

theorem simulates_shift (d : UInt32) : Simulates (.shift d) (fun _ => True) (fun _ s t => s = t) where
  line _ := rfl
  get? hR _ := by rw [hR]; rfl
  unbound _ _ _ := rfl
  define v hR _ := by rw [hR]; rfl
  assign hR _ hs := ⟨_, by rw [← hR]; exact hs, rfl⟩
  push hR := by rw [hR]
  pop hR := by rw [hR]

/-! ### Derivations -/

namespace Grammar

/-- A terminal some lines later. -/
def Terminal.shift {kind : Token.Kind} (d : UInt32) (t : Terminal kind) : Terminal kind :=
  ⟨t.1.shift d, t.2⟩

mutual

def Phrase.shift {c : Category} (d : UInt32) : Phrase c → Phrase c
  | .constant t v h => .constant (t.shift d) v h
  | .name t => .name (t.shift d)
  | .paren opening inner closing => .paren (opening.shift d) (inner.shift d) (closing.shift d)
  | .plain operand => .plain (operand.shift d)
  | .signed t op h operand => .signed (t.shift d) op h (operand.shift d)
  | .chain first links => .chain (first.shift d) (links.shift d)
  | .value e => .value (e.shift d)
  | .assign target equals value => .assign (target.shift d) (equals.shift d) (value.shift d)

def Links.shift {height : Nat} (d : UInt32) : Links height → Links height
  | .nil => .nil
  | .cons t op h hl right rest => .cons (t.shift d) op h hl (right.shift d) (rest.shift d)

end

variable {d : UInt32}

mutual

theorem Phrase.tokens_shift : {c : Category} → (p : Phrase c) →
    (p.shift d).tokens = p.tokens.map (Token.shift d)
  | _, .constant _ _ _ => rfl
  | _, .name _ => rfl
  | _, .paren _ inner _ => by
    simp [Phrase.shift, Phrase.tokens, inner.tokens_shift, Terminal.shift]
  | _, .plain operand => operand.tokens_shift
  | _, .signed _ _ _ operand => by simp [Phrase.shift, Phrase.tokens, operand.tokens_shift]
  | _, .chain first links => by
    simp [Phrase.shift, Phrase.tokens, first.tokens_shift, links.tokens_shift]
  | _, .value e => e.tokens_shift
  | _, .assign target equals value => by
    simp [Phrase.shift, Phrase.tokens, target.tokens_shift, value.tokens_shift, Terminal.shift]

theorem Links.tokens_shift : {height : Nat} → (links : Links height) →
    (links.shift d).tokens = links.tokens.map (Token.shift d)
  | _, .nil => rfl
  | _, .cons _ _ _ _ right rest => by
    simp [Links.shift, Links.tokens, right.tokens_shift, rest.tokens_shift]

end

theorem relabel_assignment (f : Relabeling) (target value : Expr) :
    (assignment target value).relabel f = assignment (target.relabel f) (value.relabel f) := by
  cases target <;> rfl

mutual

theorem Phrase.tree_shift : {c : Category} → (p : Phrase c) →
    (p.shift d).tree = p.tree.relabel (.shift d)
  | _, .constant _ _ _ => rfl
  | _, .name _ => rfl
  | _, .paren _ inner _ => congrArg Expr.grouping inner.tree_shift
  | _, .plain operand => operand.tree_shift
  | _, .signed t op _ operand => congrArg (Expr.unary op (t.line + d)) operand.tree_shift
  | _, .chain first links => by
    rw [Phrase.shift, Phrase.tree, Phrase.tree, first.tree_shift, links.tree_shift]
  | _, .value e => e.tree_shift
  | _, .assign target equals value => by
    rw [Phrase.shift, Phrase.tree, Phrase.tree, relabel_assignment, target.tree_shift, value.tree_shift]

theorem Links.tree_shift : {height : Nat} → (links : Links height) → (left : Expr) →
    (links.shift d).tree (left.relabel (.shift d)) = (links.tree left).relabel (.shift d)
  | _, .nil, _ => rfl
  | _, .cons t op _ _ right rest, left => by
    have hrest := rest.tree_shift (.binary left op t.line right.tree)
    rw [Expr.relabel, ← right.tree_shift] at hrest
    exact hrest

end

mutual

theorem Phrase.assignsNames_shift : {c : Category} → (p : Phrase c) → p.AssignsNames →
    (p.shift d).AssignsNames
  | _, .constant _ _ _, _ => trivial
  | _, .name _, _ => trivial
  | _, .paren _ inner _, h => inner.assignsNames_shift h
  | _, .plain operand, h => operand.assignsNames_shift h
  | _, .signed _ _ _ operand, h => operand.assignsNames_shift h
  | _, .chain first links, h => ⟨first.assignsNames_shift h.1, links.assignNames_shift h.2⟩
  | _, .value e, h => e.assignsNames_shift h
  | _, .assign target equals value, ⟨⟨name, hname⟩, h⟩ => by
    refine ⟨⟨name.shift d, ?_⟩, value.assignsNames_shift h⟩
    rw [target.tokens_shift, hname]
    rfl

theorem Links.assignNames_shift : {height : Nat} → (links : Links height) → links.AssignNames →
    (links.shift d).AssignNames
  | _, .nil, _ => trivial
  | _, .cons _ _ _ _ right rest, h => ⟨right.assignsNames_shift h.1, rest.assignNames_shift h.2⟩

end

theorem Phrase.avoids_shift {c : Category} {p : Phrase c} {name : String} (h : p.Avoids name) :
    (p.shift d).Avoids name := by
  intro t ht hk
  rw [p.tokens_shift] at ht
  obtain ⟨t', ht', rfl⟩ := List.mem_map.1 ht
  exact h t' ht' hk

namespace Declaration

mutual

def shift (d : UInt32) : Declaration → Declaration
  | .declare keyword name semicolon => .declare (keyword.shift d) (name.shift d) (semicolon.shift d)
  | .define keyword name equals value semicolon =>
    .define (keyword.shift d) (name.shift d) (equals.shift d) (value.shift d) (semicolon.shift d)
  | .print keyword value semicolon => .print (keyword.shift d) (value.shift d) (semicolon.shift d)
  | .block opening body closing => .block (opening.shift d) (shiftAll d body) (closing.shift d)
  | .effect value semicolon => .effect (value.shift d) (semicolon.shift d)

def shiftAll (d : UInt32) : List Declaration → List Declaration
  | [] => []
  | first :: rest => first.shift d :: shiftAll d rest

end

mutual

theorem tokens_shift : (p : Declaration) → (p.shift d).tokens = p.tokens.map (Token.shift d)
  | .declare _ _ _ => rfl
  | .define _ _ _ value _ => by simp [shift, tokens, value.tokens_shift, Terminal.shift]
  | .print _ value _ => by simp [shift, tokens, value.tokens_shift, Terminal.shift]
  | .block _ body _ => by simp [shift, tokens, tokensOfAll_shift body, Terminal.shift]
  | .effect value _ => by simp [shift, tokens, value.tokens_shift, Terminal.shift]

theorem tokensOfAll_shift : (ds : List Declaration) →
    tokensOfAll (shiftAll d ds) = (tokensOfAll ds).map (Token.shift d)
  | [] => rfl
  | first :: rest => by simp [shiftAll, tokensOfAll, first.tokens_shift, tokensOfAll_shift rest]

end

mutual

theorem statement_shift : (p : Declaration) → (p.shift d).statement = p.statement.relabel (.shift d)
  | .declare _ _ _ => rfl
  | .define _ _ _ value _ => by
    rw [shift, statement, statement, Stmt.relabel, value.tree_shift]
    rfl
  | .print _ value _ => by
    rw [shift, statement, statement, Stmt.relabel, value.tree_shift]
    rfl
  | .block _ body _ => by
    rw [shift, statement, statement, Stmt.relabel, statementsOfAll_shift body]
  | .effect value _ => by rw [shift, statement, statement, Stmt.relabel, value.tree_shift]

theorem statementsOfAll_shift : (ds : List Declaration) →
    statementsOfAll (shiftAll d ds) = Stmt.relabelAll (.shift d) (statementsOfAll ds)
  | [] => rfl
  | first :: rest => by
    rw [shiftAll, statementsOfAll, statementsOfAll, Stmt.relabelAll, first.statement_shift,
      statementsOfAll_shift rest]

end

mutual

theorem guarded_shift : (p : Declaration) → p.Guarded → (p.shift d).Guarded
  | .declare _ _ _, _ => trivial
  | .define _ _ _ _ _, h => Phrase.avoids_shift h
  | .print _ _ _, _ => trivial
  | .effect _ _, _ => trivial
  | .block _ body _, h => guardedAll_shift body h

theorem guardedAll_shift : (ds : List Declaration) → GuardedAll ds → GuardedAll (shiftAll d ds)
  | [], _ => trivial
  | first :: rest, h => ⟨first.guarded_shift h.1, guardedAll_shift rest h.2⟩

end

mutual

theorem assignsNames_shift : (p : Declaration) → p.AssignsNames → (p.shift d).AssignsNames
  | .declare _ _ _, _ => trivial
  | .define _ _ _ value _, h => value.assignsNames_shift h
  | .print _ value _, h => value.assignsNames_shift h
  | .effect value _, h => value.assignsNames_shift h
  | .block _ body _, h => allAssignNames_shift body h

theorem allAssignNames_shift : (ds : List Declaration) → AllAssignNames ds →
    AllAssignNames (shiftAll d ds)
  | [], _ => trivial
  | first :: rest, h => ⟨first.assignsNames_shift h.1, allAssignNames_shift rest h.2⟩

end

end Declaration
end Grammar

/-! ### Pieces -/

namespace Piece

def shift (d : UInt32) (p : Piece) : Piece := { p with line := p.line + d }

theorem pieces_shift (d line : UInt32) (cs : List Char) :
    pieces (line + d) cs = (pieces line cs).map (shift d) := by
  induction line, cs using pieces_induction with
  | nil line => simp
  | cons line c cs ih =>
    have hfirst : first (line + d) c cs = (first line c cs).shift d := by
      simp only [first, shift, Piece.mk.injEq, true_and]
      ac_rfl
    rw [pieces_cons, pieces_cons, hfirst, List.map_cons, ← ih]
    rfl

theorem token?_shift (d : UInt32) (p : Piece) : (p.shift d).token? = p.token?.map (Token.shift d) := by
  obtain ⟨role, text, line⟩ := p
  cases role <;> rfl

theorem error?_eq_none_shift (d : UInt32) (p : Piece) : (p.shift d).error? = none ↔ p.error? = none := by
  obtain ⟨role, text, line⟩ := p
  cases role <;> simp [error?, complaint?, shift]

end Piece
end BlockScript
