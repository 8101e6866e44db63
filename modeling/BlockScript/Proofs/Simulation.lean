import BlockScript.Execution

/-!
# Programs with other names and lines

A relabeling changes the names and the line numbers of a program. If lookups and stores of the changed
names on one side mirror those of the names on the other, then both programs do the same: they write the
same output and stop at the same fault, reported for the changed line.
-/
namespace BlockScript

structure Relabeling where
  name : Token → Token
  line : UInt32 → UInt32

namespace Expr

def relabel (f : Relabeling) : Expr → Expr
  | .literal v => .literal v
  | .grouping e => .grouping (e.relabel f)
  | .unary op line e => .unary op (f.line line) (e.relabel f)
  | .binary l op line r => .binary (l.relabel f) op (f.line line) (r.relabel f)
  | .var name => .var (f.name name)
  | .assign name e => .assign (f.name name) (e.relabel f)

/-- The names that occur in an expression. -/
def names : Expr → List Token
  | .literal _ => []
  | .grouping e | .unary _ _ e => e.names
  | .binary l _ _ r => l.names ++ r.names
  | .var name => [name]
  | .assign name e => name :: e.names

end Expr

namespace Stmt

mutual

def relabel (f : Relabeling) : Stmt → Stmt
  | .block body => .block (relabelAll f body)
  | .expr e => .expr (e.relabel f)
  | .print e line => .print (e.relabel f) (f.line line)
  | .declare name none => .declare (f.name name) none
  | .declare name (some e) => .declare (f.name name) (some (e.relabel f))

def relabelAll (f : Relabeling) : List Stmt → List Stmt
  | [] => []
  | s :: rest => s.relabel f :: relabelAll f rest

end

mutual

/-- The names that occur in a statement, declared ones included. -/
def names : Stmt → List Token
  | .block body => namesOfAll body
  | .expr e | .print e _ => e.names
  | .declare name none => [name]
  | .declare name (some e) => name :: e.names

def namesOfAll : List Stmt → List Token
  | [] => []
  | s :: rest => s.names ++ namesOfAll rest

end

end Stmt

def RuntimeError.relabel (f : Relabeling) (e : RuntimeError) : RuntimeError :=
  { e with line := f.line e.line }

/-- The second result is the first one relabeled, in a related state. -/
inductive Follows {α σ τ : Type} (f : Relabeling) (R : σ → τ → Prop) :
    EStateM.Result RuntimeError σ α → EStateM.Result RuntimeError τ α → Prop where
  | ok (v : α) {s : σ} {t : τ} (h : R s t) : Follows f R (.ok v s) (.ok v t)
  | error (e : RuntimeError) {s : σ} {t : τ} (h : R s t) :
      Follows f R (.error e s) (.error (e.relabel f) t)

theorem Follows.bind {α β σ τ : Type} {f : Relabeling} {R : σ → τ → Prop}
    {x : EStateM RuntimeError σ α} {y : EStateM RuntimeError τ α} {k : α → EStateM RuntimeError σ β}
    {l : α → EStateM RuntimeError τ β} {s : σ} {t : τ} (h : Follows f R (x s) (y t))
    (hk : ∀ v s' t', R s' t' → Follows f R (k v s') (l v t')) :
    Follows f R ((x >>= k) s) ((y >>= l) t) := by
  change Follows f R (EStateM.bind x k s) (EStateM.bind y l t)
  rw [EStateM.bind, EStateM.bind]
  generalize x s = r at h
  generalize y t = r' at h
  cases h with
  | ok v h => exact hk v _ _ h
  | error e h => exact .error e h

/-- Stores that mirror each other under a relabeling of the allowed names; `n` counts the scopes that were
entered since they began to. -/
structure Simulates (f : Relabeling) (Allowed : Token → Prop) (R : Nat → Scopes → Scopes → Prop) :
    Prop where
  line : ∀ name, (f.name name).line = f.line name.line
  get? : ∀ {n s t name}, R n s t → Allowed name →
    t.get? (f.name name).lexeme = s.get? name.lexeme
  unbound : ∀ {n s t name}, R n s t → Allowed name → s.get? name.lexeme = none →
    (f.name name).lexeme = name.lexeme
  define : ∀ {n s t name} v, R n s t → Allowed name →
    R n (s.define name.lexeme v) (t.define (f.name name).lexeme v)
  assign : ∀ {n s t name v s'}, R n s t → Allowed name → s.assign? name.lexeme v = some s' →
    ∃ t', t.assign? (f.name name).lexeme v = some t' ∧ R n s' t'
  push : ∀ {n s t}, R n s t → R (n + 1) s.push t.push
  pop : ∀ {n s t}, R (n + 1) s t → R n s.pop t.pop

namespace Simulates
variable {f : Relabeling} {Allowed : Token → Prop} {R : Nat → Scopes → Scopes → Prop} {n : Nat}

/-! ### Expressions -/

section Expressions
variable {s t : Scopes} {name : Token}

theorem undefined (h : Simulates f Allowed R) (hR : R n s t) (hname : Allowed name)
    (hnone : s.get? name.lexeme = none) :
    Eval.undefined (f.name name) = (Eval.undefined name).relabel f := by
  rw [Eval.undefined, Eval.undefined, RuntimeError.relabel, h.line, h.unbound hR hname hnone]

theorem load (h : Simulates f Allowed R) (hR : R n s t) (hname : Allowed name) :
    Follows f (R n) (Eval.load name s) (Eval.load (f.name name) t) := by
  have hget := h.get? hR hname
  cases hs : s.get? name.lexeme with
  | some v =>
    rw [hs] at hget
    rw [Eval.load_of_bound hs, Eval.load_of_bound hget]
    exact .ok v hR
  | none =>
    rw [hs] at hget
    rw [Eval.load_of_unbound hs, Eval.load_of_unbound hget, h.undefined hR hname hs]
    exact .error _ hR

theorem store (h : Simulates f Allowed R) (hR : R n s t) (hname : Allowed name) (v : Value) :
    Follows f (R n) (Eval.store name v s) (Eval.store (f.name name) v t) := by
  cases hs : s.assign? name.lexeme v with
  | some s' =>
    obtain ⟨t', ht, hR'⟩ := h.assign hR hname hs
    rw [Eval.store_of_bound hs, Eval.store_of_bound ht]
    exact .ok v hR'
  | none =>
    have hnone : s.get? name.lexeme = none := by
      have hsome := s.assign?_isSome name.lexeme v
      rw [hs] at hsome
      simpa using hsome.symm
    have hnone' : t.assign? (f.name name).lexeme v = none := by
      have hsome := t.assign?_isSome (f.name name).lexeme v
      rw [h.get? hR hname, hnone] at hsome
      simpa using hsome
    rw [Eval.store_of_unbound hs, Eval.store_of_unbound hnone', h.undefined hR hname hnone]
    exact .error _ hR

theorem ofOperator (hR : R n s t) (line : UInt32) (r : Except RuntimeFault Value) :
    Follows f (R n) (Eval.ofOperator line r s) (Eval.ofOperator (f.line line) r t) := by
  cases r with
  | ok v => exact .ok v hR
  | error fault => exact .error ⟨line, fault⟩ hR

theorem eval (h : Simulates f Allowed R) {e : Expr} (he : ∀ name ∈ e.names, Allowed name)
    (hR : R n s t) : Follows f (R n) (e.eval s) ((e.relabel f).eval t) := by
  induction e generalizing s t with
  | literal v => exact .ok v hR
  | grouping e ih => exact ih he hR
  | unary op line e ih =>
    exact (ih he hR).bind fun v s' t' hR' => ofOperator hR' line (op.apply v)
  | binary l op line r ihl ihr =>
    have hl := ihl (fun name hname => he name (List.mem_append_left _ hname)) hR
    refine hl.bind fun x s' t' hR' => ?_
    have hr := ihr (fun name hname => he name (List.mem_append_right _ hname)) hR'
    exact hr.bind fun y s'' t'' hR'' => ofOperator hR'' line (op.apply x y)
  | var name => exact h.load hR (he name List.mem_cons_self)
  | assign name e ih =>
    have hv := ih (fun name hname => he name (List.mem_cons_of_mem _ hname)) hR
    exact hv.bind fun v s' t' hR' => h.store hR' (he name List.mem_cons_self) v

end Expressions

/-! ### Statements -/

end Simulates

/-- Machines with related scopes and one output; their logs may differ. -/
structure Machine.Related (R : Scopes → Scopes → Prop) (m m' : Machine) : Prop where
  scopes : R m.scopes m'.scopes
  output : m.output = m'.output

namespace Simulates
variable {f : Relabeling} {Allowed : Token → Prop} {R : Nat → Scopes → Scopes → Prop} {n : Nat}
  {m m' : Machine}

theorem evaluate (h : Simulates f Allowed R) {e : Expr} (he : ∀ name ∈ e.names, Allowed name)
    (hm : m.Related (R n) m') :
    Follows f (Machine.Related (R n)) (Exec.evaluate e m) (Exec.evaluate (e.relabel f) m') := by
  have hf := h.eval he hm.scopes
  rw [Exec.evaluate, Exec.evaluate]
  generalize e.eval m.scopes = r at hf
  generalize (e.relabel f).eval m'.scopes = r' at hf
  cases hf with
  | ok v hR => exact .ok v ⟨hR, hm.output⟩
  | error error hR => exact .error error ⟨hR, hm.output⟩

theorem printLine (hm : m.Related (R n) m') (line : UInt32) (v : Value) :
    Follows f (Machine.Related (R n)) (Exec.printLine line v m) (Exec.printLine (f.line line) v m') := by
  rw [Exec.printLine, Exec.printLine, ← hm.output]
  obtain ⟨output, cause⟩ := m.output.writeLine v.text
  cases cause with
  | none => exact .ok () ⟨hm.scopes, rfl⟩
  | some cause => exact .error ⟨line, .output cause⟩ ⟨hm.scopes, rfl⟩

theorem inNewScope (h : Simulates f Allowed R) {body body' : Exec Unit}
    (hb : ∀ m m', m.Related (R (n + 1)) m' →
      Follows f (Machine.Related (R (n + 1))) (body m) (body' m'))
    (hm : m.Related (R n) m') :
    Follows f (Machine.Related (R n)) (Exec.inNewScope body m) (Exec.inNewScope body' m') := by
  have hf := hb m.enter m'.enter ⟨h.push hm.scopes, hm.output⟩
  have hleave : ∀ k k' : Machine, k.Related (R (n + 1)) k' → k.leave.Related (R n) k'.leave := by
    intro k k' hk
    refine ⟨?_, by rw [Machine.output_leave, Machine.output_leave, hk.output]⟩
    rw [Machine.scopes_leave, Machine.scopes_leave]
    exact h.pop hk.scopes
  rw [Exec.inNewScope, Exec.inNewScope]
  generalize body m.enter = r at hf
  generalize body' m'.enter = r' at hf
  cases hf with
  | ok v hR => exact .ok v (hleave _ _ hR)
  | error error hR => exact .error error (hleave _ _ hR)

mutual

theorem exec (h : Simulates f Allowed R) {n : Nat} : (s : Stmt) → (∀ name ∈ s.names, Allowed name) →
    {m m' : Machine} → m.Related (R n) m' →
    Follows f (Machine.Related (R n)) (s.exec m) ((s.relabel f).exec m')
  | .block body, hs, _, _, hm => by
    rw [Stmt.exec, Stmt.relabel, Stmt.exec]
    exact h.inNewScope (fun _ _ hm' => h.execAll body hs hm') hm
  | .expr e, hs, _, _, hm => by
    rw [Stmt.exec, Stmt.relabel, Stmt.exec]
    exact (h.evaluate hs hm).bind fun v k k' hk => .ok () hk
  | .print e line, hs, _, _, hm => by
    rw [Stmt.exec, Stmt.relabel, Stmt.exec]
    exact (h.evaluate hs hm).bind fun v k k' hk => printLine hk line v
  | .declare name none, hs, _, _, hm => by
    rw [Stmt.exec, Stmt.relabel, Stmt.exec]
    exact .ok () ⟨h.define .nil hm.scopes (hs name List.mem_cons_self), hm.output⟩
  | .declare name (some e), hs, _, _, hm => by
    rw [Stmt.exec, Stmt.relabel, Stmt.exec]
    have he := h.evaluate (fun name hname => hs name (List.mem_cons_of_mem _ hname)) hm
    exact he.bind fun v k k' hk => .ok () ⟨h.define v hk.scopes (hs name List.mem_cons_self), hk.output⟩

theorem execAll (h : Simulates f Allowed R) {n : Nat} : (program : List Stmt) →
    (∀ name ∈ Stmt.namesOfAll program, Allowed name) → {m m' : Machine} → m.Related (R n) m' →
    Follows f (Machine.Related (R n)) (Stmt.execAll program m)
      (Stmt.execAll (Stmt.relabelAll f program) m')
  | [], _, _, _, hm => by
    rw [Stmt.execAll, Stmt.relabelAll, Stmt.execAll]
    exact .ok () hm
  | s :: rest, hs, _, _, hm => by
    rw [Stmt.execAll, Stmt.relabelAll, Stmt.execAll]
    have hfirst := h.exec s (fun name hname => hs name (List.mem_append_left _ hname)) hm
    exact hfirst.bind fun _ k k' hk =>
      h.execAll rest (fun name hname => hs name (List.mem_append_right _ hname)) hk

end

end Simulates
end BlockScript
