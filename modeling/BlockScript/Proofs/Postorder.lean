import BlockScript.Rendering
import BlockScript.Proofs.BindingChanges

/-!
# Expressions in postorder

The nodes of an expression, each after its operands, are a program for a machine with a stack of values. It
has the same outcome as evaluation: the value is the one that is left on the stack, the error is that of the
first node that fails, and what was stored is what the nodes before that one have stored. Reverse Polish
text shows the nodes in this order.
-/
namespace BlockScript

/-! ### Scopes as a list -/

namespace Scopes

/-- The place of the innermost scope that binds the name. -/
def home? (name : String) (scopes : List Scope) : Option Nat :=
  scopes.findIdx? fun scope => scope.contains name

/-- The value of the name in the innermost scope that binds it. -/
def lookup? (name : String) (scopes : List Scope) : Option Value :=
  (home? name scopes).bind fun i => scopes[i]?.bind fun scope => scope[name]?

/-- Gives the name a value in the innermost scope that binds it, and in no other. -/
def store? (name : String) (v : Value) (scopes : List Scope) : Option (List Scope) :=
  (home? name scopes).map fun i => scopes.modify i fun scope => scope.insert name v

/-- Stores values one after the other. -/
def storeAll? : List (String × Value) → List Scope → Option (List Scope)
  | [], scopes => some scopes
  | (name, v) :: rest, scopes => (store? name v scopes).bind (storeAll? rest)

theorem storeAll?_append {stores stores' : List (String × Value)} {scopes scopes' scopes'' : List Scope}
    (h : storeAll? stores scopes = some scopes') (h' : storeAll? stores' scopes' = some scopes'') :
    storeAll? (stores ++ stores') scopes = some scopes'' := by
  induction stores generalizing scopes with
  | nil =>
    obtain rfl := Option.some.inj h
    exact h'
  | cons store rest ih =>
    obtain ⟨stored, hstore, hrest⟩ := Option.bind_eq_some_iff.1 h
    exact Option.bind_eq_some_iff.2 ⟨stored, hstore, ih hrest⟩

section Names
variable (name : String) (v : Value)

theorem home?_cons (scope : Scope) (rest : List Scope) :
    home? name (scope :: rest) =
      if scope.contains name then some 0 else (home? name rest).map (· + 1) :=
  List.findIdx?_cons

theorem get?_eq_lookup? (s : Scopes) : s.get? name = lookup? name s.toList := by
  rw [get?]
  induction s.toList with
  | nil => rfl
  | cons scope rest ih =>
    rw [List.findSome?_cons, ih, lookup?, lookup?, home?_cons, Std.TreeMap.contains_eq_isSome_getElem?]
    cases hv : scope[name]? with
    | some bound => simp [hv]
    | none => cases home? name rest <;> simp

theorem rebind?_eq_store? (scopes : List Scope) : rebind? name v scopes = store? name v scopes := by
  induction scopes with
  | nil => rfl
  | cons scope rest ih =>
    rw [rebind?, ih, store?, store?, home?_cons]
    split
    · rfl
    · simp [Option.map_map, Function.comp_def]

theorem assign?_toList (s : Scopes) : (s.assign? name v).map toList = store? name v s.toList := by
  rw [map_toList_assign?, rebind?_eq_store?]

end Names
end Scopes

namespace Expr

/-! ### Nodes -/

/-- A node of an expression without its operands. -/
inductive Node where
  | literal (value : Value)
  | grouping
  | unary (op : UnaryOp) (line : UInt32)
  | binary (op : BinaryOp) (line : UInt32)
  | var (name : Token)
  | assign (name : Token)

/-- The nodes of an expression in postorder. -/
def nodes : Expr → List Node
  | .literal v => [.literal v]
  | .grouping e => e.nodes ++ [.grouping]
  | .unary op line e => e.nodes ++ [.unary op line]
  | .binary l op line r => l.nodes ++ r.nodes ++ [.binary op line]
  | .var name => [.var name]
  | .assign name e => e.nodes ++ [.assign name]

namespace Node

/-- How a node is shown in reverse Polish text. -/
def text? : Node → Option String
  | .literal v => some v.quoted
  | .grouping => none
  | .unary op _ => some (polishSymbol op)
  | .binary op _ => some op.symbol
  | .var name => some name.lexeme
  | .assign name => some (name.lexeme ++ " =")

/-- The name that a node stores a value for. -/
def target? : Node → Option String
  | .assign name => some name.lexeme
  | _ => none

/-- A stack of values and the scopes, or the error that ends the run. -/
abbrev Outcome := EStateM.Result RuntimeError (List Scope) (List Value)

/-- The outcome of an operator whose operands were taken off the stack. -/
def push (line : UInt32) (stack : List Value) (scopes : List Scope) : Except RuntimeFault Value → Outcome
  | .ok v => .ok (v :: stack) scopes
  | .error fault => .error ⟨line, fault⟩ scopes

/-- Runs one node; the result is `none` if its operands are not on the stack. -/
def run : Node → List Value → List Scope → Option Outcome
  | .literal v, stack, scopes => some (.ok (v :: stack) scopes)
  | .grouping, stack, scopes => some (.ok stack scopes)
  | .unary op line, v :: stack, scopes => some (push line stack scopes (op.apply v))
  | .binary op line, right :: left :: stack, scopes => some (push line stack scopes (op.apply left right))
  | .var name, stack, scopes =>
    match Scopes.lookup? name.lexeme scopes with
    | some v => some (.ok (v :: stack) scopes)
    | none => some (.error ⟨name.line, .undefinedVariable name.lexeme⟩ scopes)
  | .assign name, v :: stack, scopes =>
    match Scopes.store? name.lexeme v scopes with
    | some scopes => some (.ok (v :: stack) scopes)
    | none => some (.error ⟨name.line, .undefinedVariable name.lexeme⟩ scopes)
  | _, _, _ => none

/-- Runs nodes in order, up to the first that fails. -/
def runAll : List Node → List Value → List Scope → Option Outcome
  | [], stack, scopes => some (.ok stack scopes)
  | node :: rest, stack, scopes =>
    match node.run stack scopes with
    | some (.ok stack scopes) => runAll rest stack scopes
    | outcome => outcome

section Run
variable {node : Node} {stack stack' : List Value} {scopes scopes' : List Scope} {error : RuntimeError}

theorem push_eq_ok {line : UInt32} {r : Except RuntimeFault Value}
    (h : push line stack scopes r = .ok stack' scopes') : scopes' = scopes := by
  cases r with
  | ok v => exact (EStateM.Result.ok.inj h).2.symm
  | error fault => cases h

theorem push_eq_error {line : UInt32} {r : Except RuntimeFault Value}
    (h : push line stack scopes r = .error error scopes') : scopes' = scopes := by
  cases r with
  | ok v => cases h
  | error fault => exact (EStateM.Result.error.inj h).2.symm

/-- From the first scopes to the second, exactly the assignments among the nodes have stored a value each. -/
def Stored (nodes : List Node) (scopes scopes' : List Scope) : Prop :=
  ∃ stores, stores.map Prod.fst = nodes.filterMap target? ∧ Scopes.storeAll? stores scopes = some scopes'

theorem Stored.of_target?_eq_none (h : node.target? = none) (scopes : List Scope) :
    Stored [node] scopes scopes :=
  ⟨[], by rw [List.filterMap_cons_none h, List.filterMap_nil, List.map_nil], rfl⟩

theorem stored_of_run (h : node.run stack scopes = some (.ok stack' scopes')) :
    Stored [node] scopes scopes' := by
  cases node with
  | literal v =>
    obtain ⟨-, rfl⟩ := EStateM.Result.ok.inj (Option.some.inj h)
    exact .of_target?_eq_none rfl scopes
  | grouping =>
    obtain ⟨-, rfl⟩ := EStateM.Result.ok.inj (Option.some.inj h)
    exact .of_target?_eq_none rfl scopes
  | unary op line =>
    cases stack with
    | nil => cases h
    | cons v stack =>
      obtain rfl := push_eq_ok (Option.some.inj h)
      exact .of_target?_eq_none rfl scopes'
  | binary op line =>
    match stack, h with
    | right :: left :: stack, h =>
      obtain rfl := push_eq_ok (Option.some.inj h)
      exact .of_target?_eq_none rfl scopes'
  | var name =>
    rw [run] at h
    split at h
    · obtain ⟨-, rfl⟩ := EStateM.Result.ok.inj (Option.some.inj h)
      exact .of_target?_eq_none rfl scopes
    · cases h
  | assign name =>
    cases stack with
    | nil => cases h
    | cons v stack =>
      rw [run] at h
      split at h
      · next stored hstore =>
        obtain ⟨-, rfl⟩ := EStateM.Result.ok.inj (Option.some.inj h)
        refine ⟨[(name.lexeme, v)], rfl, ?_⟩
        rw [Scopes.storeAll?, hstore, Option.bind_some, Scopes.storeAll?]
      · cases h

/-- A node that fails leaves the scopes as they are. -/
theorem scopes_of_run_error (h : node.run stack scopes = some (.error error scopes')) : scopes' = scopes := by
  cases node with
  | literal v | grouping => cases h
  | unary op line =>
    cases stack with
    | nil => cases h
    | cons v stack => exact push_eq_error (Option.some.inj h)
  | binary op line =>
    match stack, h with
    | right :: left :: stack, h => exact push_eq_error (Option.some.inj h)
  | var name =>
    rw [run] at h
    split at h
    · cases h
    · exact (EStateM.Result.error.inj (Option.some.inj h)).2.symm
  | assign name =>
    cases stack with
    | nil => cases h
    | cons v stack =>
      rw [run] at h
      split at h
      · cases h
      · exact (EStateM.Result.error.inj (Option.some.inj h)).2.symm

theorem Stored.append {nodes nodes' : List Node} {scopes'' : List Scope} (h : Stored nodes scopes scopes')
    (h' : Stored nodes' scopes' scopes'') : Stored (nodes ++ nodes') scopes scopes'' := by
  obtain ⟨stores, hnames, hstores⟩ := h
  obtain ⟨stores', hnames', hstores'⟩ := h'
  refine ⟨stores ++ stores', ?_, Scopes.storeAll?_append hstores hstores'⟩
  rw [List.map_append, List.filterMap_append, hnames, hnames']

theorem runAll_cons_of_ok {rest : List Node} (h : node.run stack scopes = some (.ok stack' scopes')) :
    runAll (node :: rest) stack scopes = runAll rest stack' scopes' := by
  rw [runAll, h]

/-- Nodes that run to their end have made all their stores. -/
theorem stored_of_runAll {nodes : List Node} (h : runAll nodes stack scopes = some (.ok stack' scopes')) :
    Stored nodes scopes scopes' := by
  induction nodes generalizing stack scopes with
  | nil =>
    obtain ⟨-, rfl⟩ := EStateM.Result.ok.inj (Option.some.inj h)
    exact ⟨[], rfl, rfl⟩
  | cons node rest ih =>
    rw [runAll] at h
    split at h
    · next stack₁ scopes₁ hrun => exact (stored_of_run hrun).append (ih h)
    · next outcome hnone => exact absurd h (hnone stack' scopes')

/-- An error comes from the first node that fails. -/
theorem failing_of_runAll {nodes : List Node} (h : runAll nodes stack scopes = some (.error error scopes')) :
    ∃ before node after stack', nodes = before ++ node :: after ∧
      runAll before stack scopes = some (.ok stack' scopes') ∧
      node.run stack' scopes' = some (.error error scopes') := by
  induction nodes generalizing stack scopes with
  | nil => cases h
  | cons node rest ih =>
    rw [runAll] at h
    split at h
    · next stack₁ scopes₁ hrun =>
      obtain ⟨before, node', after, stack', rfl, hbefore, hfails⟩ := ih h
      refine ⟨node :: before, node', after, stack', rfl, ?_, hfails⟩
      rw [runAll_cons_of_ok hrun, hbefore]
    · obtain rfl := scopes_of_run_error h
      exact ⟨[], node, rest, stack, rfl, rfl, h⟩

end Run
end Node

/-! ### Evaluation -/

section Eval
variable (s : Scopes) (op : UnaryOp) (op' : BinaryOp) (line : UInt32) (name : Token) (e l r : Expr)

theorem eval_unary :
    (unary op line e).eval s =
      match e.eval s with
      | .ok v s' => Eval.ofOperator line (op.apply v) s'
      | .error error s' => .error error s' := by
  rw [eval]
  change EStateM.bind e.eval (fun v => Eval.ofOperator line (op.apply v)) s = _
  rw [EStateM.bind]
  cases e.eval s <;> rfl

theorem eval_binary :
    (binary l op' line r).eval s =
      match l.eval s with
      | .ok x s' =>
        match r.eval s' with
        | .ok y s'' => Eval.ofOperator line (op'.apply x y) s''
        | .error error s'' => .error error s''
      | .error error s' => .error error s' := by
  rw [eval]
  change EStateM.bind l.eval (fun x => EStateM.bind r.eval fun y => Eval.ofOperator line (op'.apply x y)) s = _
  rw [EStateM.bind]
  cases l.eval s with
  | error error s' => rfl
  | ok x s' =>
    dsimp only
    rw [EStateM.bind]
    cases r.eval s' <;> rfl

theorem eval_assign :
    (assign name e).eval s =
      match e.eval s with
      | .ok v s' => Eval.store name v s'
      | .error error s' => .error error s' := by
  rw [eval]
  change EStateM.bind e.eval (Eval.store name) s = _
  rw [EStateM.bind]
  cases e.eval s <;> rfl

end Eval

namespace Node

/-- What the nodes of an expression do before the rest of a program. -/
def continueWith (rest : List Node) (stack : List Value) :
    EStateM.Result RuntimeError Scopes Value → Option Outcome
  | .ok v s => runAll rest (v :: stack) s.toList
  | .error error s => some (.error error s.toList)

section Eval
variable (rest : List Node) (stack : List Value) (s : Scopes)

theorem runAll_operator {node : Node} {line : UInt32} {stack' : List Value} (result : Except RuntimeFault Value)
    (h : node.run stack' s.toList = some (push line stack s.toList result)) :
    runAll (node :: rest) stack' s.toList = continueWith rest stack (Eval.ofOperator line result s) := by
  rw [runAll, h]
  cases result <;> rfl

theorem runAll_var (name : Token) :
    runAll (.var name :: rest) stack s.toList = continueWith rest stack (Eval.load name s) := by
  have hget := s.get?_eq_lookup? name.lexeme
  rw [runAll, run, ← hget]
  cases h : s.get? name.lexeme with
  | some v =>
    rw [Eval.load_of_bound h]
    rfl
  | none =>
    rw [Eval.load_of_unbound h]
    rfl

theorem runAll_assign (name : Token) (v : Value) :
    runAll (.assign name :: rest) (v :: stack) s.toList = continueWith rest stack (Eval.store name v s) := by
  have hassign := s.assign?_toList name.lexeme v
  rw [runAll, run, ← hassign]
  cases h : s.assign? name.lexeme v with
  | some s' =>
    rw [Eval.store_of_bound h]
    rfl
  | none =>
    rw [Eval.store_of_unbound h]
    rfl

/-- The nodes of an expression put its value on the stack, or end the program with its error. -/
theorem runAll_nodes_append (e : Expr) :
    runAll (e.nodes ++ rest) stack s.toList = continueWith rest stack (e.eval s) := by
  induction e generalizing rest stack s with
  | literal v => rfl
  | grouping e ih =>
    rw [nodes, List.append_assoc, ih, eval]
    cases e.eval s <;> rfl
  | unary op line e ih =>
    rw [nodes, List.append_assoc, ih, eval_unary]
    cases e.eval s with
    | ok v s' => exact runAll_operator rest stack s' (op.apply v) rfl
    | error error s' => rfl
  | binary l op line r ihl ihr =>
    rw [nodes, List.append_assoc, List.append_assoc, ihl, eval_binary]
    cases l.eval s with
    | error error s' => rfl
    | ok x s' =>
      rw [continueWith, ihr]
      dsimp only
      cases r.eval s' with
      | ok y s'' => exact runAll_operator rest stack s'' (op.apply x y) rfl
      | error error s'' => rfl
  | var name => exact runAll_var rest stack s name
  | assign name e ih =>
    rw [nodes, List.append_assoc, ih, eval_assign]
    cases e.eval s with
    | ok v s' => exact runAll_assign rest stack s' name v
    | error error s' => rfl

end Eval
end Node

/-! ### Reverse Polish text -/

/-- The texts of the nodes that leave one. -/
def nodeTexts (e : Expr) : List String := e.nodes.filterMap Node.text?

theorem nodeTexts_ne_nil (e : Expr) : e.nodeTexts ≠ [] := by
  induction e with
  | grouping e ih => simpa [nodeTexts, nodes, Node.text?] using ih
  | literal v | unary op line e ih | binary l op line r ihl ihr | var name | assign name e ih =>
    simp [nodeTexts, nodes, Node.text?]

theorem intercalate_snoc {texts : List String} (h : texts ≠ []) (text : String) :
    " ".intercalate (texts ++ [text]) = " ".intercalate texts ++ " " ++ text := by
  rw [String.intercalate_append_of_ne_nil h (List.cons_ne_nil _ _), String.intercalate_singleton]

theorem reversePolish_eq (e : Expr) : e.reversePolish = " ".intercalate e.nodeTexts := by
  induction e with
  | literal v => exact String.intercalate_singleton.symm
  | var name => exact String.intercalate_singleton.symm
  | grouping e ih =>
    have htexts : (grouping e).nodeTexts = e.nodeTexts := by simp [nodeTexts, nodes, Node.text?]
    rw [reversePolish, ih, htexts]
  | unary op line e ih =>
    have htexts : (unary op line e).nodeTexts = e.nodeTexts ++ [polishSymbol op] := by
      simp [nodeTexts, nodes, Node.text?]
    rw [reversePolish, ih, htexts, intercalate_snoc e.nodeTexts_ne_nil]
  | binary l op line r ihl ihr =>
    have htexts : (binary l op line r).nodeTexts = l.nodeTexts ++ r.nodeTexts ++ [op.symbol] := by
      simp [nodeTexts, nodes, Node.text?]
    have hne : l.nodeTexts ++ r.nodeTexts ≠ [] := List.append_ne_nil_of_left_ne_nil l.nodeTexts_ne_nil _
    rw [reversePolish, ihl, ihr, htexts, intercalate_snoc hne,
      String.intercalate_append_of_ne_nil l.nodeTexts_ne_nil r.nodeTexts_ne_nil]
  | assign name e ih =>
    have htexts : (assign name e).nodeTexts = e.nodeTexts ++ [name.lexeme ++ " ="] := by
      simp [nodeTexts, nodes, Node.text?]
    rw [reversePolish, ih, htexts, intercalate_snoc e.nodeTexts_ne_nil]
    simp only [String.append_assoc]

/-! ### Outcomes -/

/-- Evaluation runs the nodes of the expression in postorder on an empty stack. If it succeeds, its value is
all that is on the stack, and each assignment has made its store. If it fails, some node is the first to
fail, and just the assignments before that node have made theirs. In any case nothing is written, and every
scope binds the names that it bound before. Reverse Polish text lists the nodes in this order. -/
theorem evaluate_postorder (e : Expr) (m : Machine) :
    (match Exec.evaluate e m with
      | .ok v after =>
        Node.runAll e.nodes [] m.scopes.toList = some (.ok [v] after.scopes.toList) ∧
          Node.Stored e.nodes m.scopes.toList after.scopes.toList
      | .error error after =>
        Node.runAll e.nodes [] m.scopes.toList = some (.error error after.scopes.toList) ∧
          ∃ before node rest stack, e.nodes = before ++ node :: rest ∧
            Node.runAll before [] m.scopes.toList = some (.ok stack after.scopes.toList) ∧
            node.run stack after.scopes.toList = some (.error error after.scopes.toList) ∧
            Node.Stored before m.scopes.toList after.scopes.toList) ∧
      (finalState (Exec.evaluate e m)).output = m.output ∧
      List.Forall₂ (fun before after : Scope => ∀ name, name ∈ after ↔ name ∈ before)
        m.scopes.toList (finalState (Exec.evaluate e m)).scopes.toList ∧
      e.reversePolish = " ".intercalate (e.nodes.filterMap Node.text?) := by
  have hrun := Node.runAll_nodes_append [] [] m.scopes e
  rw [List.append_nil] at hrun
  have hchanged : m.scopes.ChangedBy e.assigned [] (finalState (e.eval m.scopes)) :=
    confined_eval (List.Subset.refl e.assigned) m.scopes
  have hbound : List.Forall₂ (fun before after : Scope => ∀ name, name ∈ after ↔ name ∈ before)
      m.scopes.toList (finalState (e.eval m.scopes)).toList :=
    .cons hchanged.innermost.mem_iff (hchanged.enclosing.imp fun _ _ h => h.mem_iff)
  rw [Exec.evaluate]
  generalize e.eval m.scopes = r at hrun hbound
  cases r with
  | ok v s => exact ⟨⟨hrun, Node.stored_of_runAll hrun⟩, rfl, hbound, e.reversePolish_eq⟩
  | error error s =>
    obtain ⟨before, node, rest, stack, hnodes, hbefore, hfails⟩ := Node.failing_of_runAll hrun
    exact ⟨⟨hrun, before, node, rest, stack, hnodes, hbefore, hfails, Node.stored_of_runAll hbefore⟩,
      rfl, hbound, e.reversePolish_eq⟩

end Expr
end BlockScript
