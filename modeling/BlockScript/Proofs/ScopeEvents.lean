import Mathlib.Data.Finset.Card
import Mathlib.Data.Finset.Dedup
import BlockScript.Proofs.BindingChanges

/-!
# Scopes in the log

The log of a run shows each execution of a block as a pair of events, with those of the blocks within in
between. A scope is left on every way out of its block, and the event then counts the names that were bound in
it: the different names declared directly in the block, as far as the block got. The fault that ends a run is
recorded once, after all scopes are left.
-/
namespace BlockScript

/-- The execution of a block: the names of the declarations that were made directly in it, and the executions
of the blocks directly in it. -/
inductive Visit where
  | mk (declared : List String) (inner : List Visit)

namespace Visit

mutual

/-- The events of a visit from the given depth. -/
def events (depth : Nat) : Visit → List Event
  | mk declared inner =>
    .enteredScope (depth + 1) :: (eventsOfAll (depth + 1) inner ++ [.leftScope depth declared.toFinset.card])

def eventsOfAll (depth : Nat) : List Visit → List Event
  | [] => []
  | v :: rest => v.events depth ++ eventsOfAll depth rest

end

theorem eventsOfAll_append (depth : Nat) (vs vs' : List Visit) :
    eventsOfAll depth (vs ++ vs') = eventsOfAll depth vs ++ eventsOfAll depth vs' := by
  induction vs with
  | nil => rfl
  | cons v rest ih => rw [List.cons_append, eventsOfAll, eventsOfAll, ih, List.append_assoc]

end Visit

/-- The depth after events of scopes. An entered scope must be one deeper than what is around it, and leaving
it must lead back by one; `none` if that is not so, or if an event is of another kind. -/
def depthAfter? : Nat → List Event → Option Nat
  | depth, [] => some depth
  | depth, .enteredScope entered :: rest => if entered = depth + 1 then depthAfter? entered rest else none
  | depth, .leftScope left _ :: rest => if left + 1 = depth then depthAfter? left rest else none
  | _, _ :: _ => none

mutual

theorem depthAfter?_events (depth : Nat) (rest : List Event) :
    (v : Visit) → depthAfter? depth (v.events depth ++ rest) = depthAfter? depth rest
  | .mk declared inner => by
    rw [Visit.events, List.cons_append, depthAfter?, if_pos rfl, List.append_assoc,
      depthAfter?_eventsOfAll (depth + 1) _ inner, List.singleton_append, depthAfter?, if_pos rfl]

theorem depthAfter?_eventsOfAll (depth : Nat) (rest : List Event) :
    (vs : List Visit) → depthAfter? depth (Visit.eventsOfAll depth vs ++ rest) = depthAfter? depth rest
  | [] => rfl
  | v :: vs => by
    rw [Visit.eventsOfAll, List.append_assoc, depthAfter?_events depth _ v,
      depthAfter?_eventsOfAll depth rest vs]

end

/-! ### Runs -/

/-- Between the two states nothing is recorded. -/
def Machine.SameLog (before after : Machine) : Prop := after.log = before.log

theorem Machine.SameLog.trans {m k n : Machine} (h : m.SameLog k) (h' : k.SameLog n) : m.SameLog n :=
  Eq.trans h' h

namespace Stmt

/-- The statements of a program that are run to their end. -/
def completed : List Stmt → Machine → List Stmt
  | [], _ => []
  | s :: rest, m =>
    match s.exec m with
    | .ok () m => s :: completed rest m
    | .error _ _ => []

mutual

/-- The executions of the blocks that a statement consists of, when it is run on the machine. -/
def visits : Stmt → Machine → List Visit
  | .block body, m => [.mk (declaredInAll (completed body m.enter)) (visitsOfAll body m.enter)]
  | .expr _, _ | .print _ _, _ | .declare _ _, _ => []

/-- The executions of the blocks that stand directly in a program. -/
def visitsOfAll : List Stmt → Machine → List Visit
  | [], _ => []
  | s :: rest, m =>
    s.visits m ++
      match s.exec m with
      | .ok () m => visitsOfAll rest m
      | .error _ _ => []

end

theorem exec_declare (name : Token) (e : Expr) (m : Machine) :
    (declare name (some e)).exec m =
      match Exec.evaluate e m with
      | .ok v m => .ok () (m.define name.lexeme v)
      | .error error m => .error error m := by
  rw [exec]
  change EStateM.bind (Exec.evaluate e) (fun v => modify (·.define name.lexeme v)) m = _
  rw [EStateM.bind]
  cases Exec.evaluate e m <;> rfl

theorem eq_declare_of_declared? {s : Stmt} {declared : String} (h : s.declared? = some declared) :
    ∃ name initializer, s = declare name initializer ∧ name.lexeme = declared := by
  cases s with
  | declare name initializer => exact ⟨name, initializer, rfl, Option.some.inj h⟩
  | block | expr | print => cases h

theorem finalState_inNewScope (body : Exec Unit) (m : Machine) :
    finalState (Exec.inNewScope body m) = (finalState (body m.enter)).leave := by
  rw [Exec.inNewScope]
  cases body m.enter <;> rfl

/-! ### What is bound in the innermost scope -/

section Innermost
variable {s : Stmt} {m m' : Machine} {error : RuntimeError}

theorem mem_innermost_evaluate (e : Expr) (m : Machine) (name : String) :
    name ∈ (finalState (Exec.evaluate e m)).scopes.innermost ↔ name ∈ m.scopes.innermost := by
  have hchanged : m.scopes.ChangedBy e.assigned [] (finalState (Exec.evaluate e m)).scopes :=
    confined_evaluate (List.Subset.refl e.assigned) m
  exact hchanged.innermost.mem_iff name

theorem mem_innermost_define (m : Machine) (declared : String) (v : Value) (name : String) :
    name ∈ (m.define declared v).scopes.innermost ↔ name ∈ m.scopes.innermost ∨ name = declared := by
  change name ∈ m.scopes.innermost.insert declared v ↔ _
  rw [Std.TreeMap.mem_insert, Std.LawfulEqCmp.compare_eq_iff_eq, eq_comm, or_comm]

/-- A statement that declares nothing binds nothing in the innermost scope. -/
theorem mem_innermost_exec (h : s.declared? = none) (m : Machine) (name : String) :
    name ∈ (finalState (s.exec m)).scopes.innermost ↔ name ∈ m.scopes.innermost := by
  have hnone : ∀ name ∈ s.declared?, name ∈ ([] : List String) := fun name hname => by
    rw [h] at hname
    cases hname
  have he : ∀ e ∈ s.expressions, e.assigned ⊆ assignedInAll [s] := fun e he =>
    assigned_subset (by rw [expressionsOfAll]; exact List.mem_append_left _ he)
  exact (confined_exec s he hnone m).innermost.mem_iff name

/-- A statement that is run to its end binds the name that it declares. -/
theorem mem_innermost_of_exec_ok (h : s.exec m = .ok () m') (name : String) :
    name ∈ m'.scopes.innermost ↔ name ∈ m.scopes.innermost ∨ name ∈ s.declared? := by
  cases hd : s.declared? with
  | none =>
    have hmem := mem_innermost_exec hd m name
    rw [h] at hmem
    simpa [finalState] using hmem
  | some declared =>
    obtain ⟨token, initializer, rfl, rfl⟩ := eq_declare_of_declared? hd
    cases initializer with
    | none =>
      obtain rfl : m.define token.lexeme .nil = m' := by
        rw [exec] at h
        cases h
        rfl
      rw [mem_innermost_define]
      simp [eq_comm]
    | some e =>
      have hmem := mem_innermost_evaluate e m name
      rw [exec_declare] at h
      generalize Exec.evaluate e m = r at h hmem
      cases r with
      | ok v k =>
        cases h
        rw [mem_innermost_define, ← hmem]
        simp [finalState, eq_comm]
      | error e k => cases h

/-- A statement that fails binds nothing. -/
theorem mem_innermost_of_exec_error (h : s.exec m = .error error m') (name : String) :
    name ∈ m'.scopes.innermost ↔ name ∈ m.scopes.innermost := by
  cases hd : s.declared? with
  | none =>
    have hmem := mem_innermost_exec hd m name
    rwa [h] at hmem
  | some declared =>
    obtain ⟨token, initializer, rfl, rfl⟩ := eq_declare_of_declared? hd
    cases initializer with
    | none =>
      rw [exec] at h
      cases h
    | some e =>
      have hmem := mem_innermost_evaluate e m name
      rw [exec_declare] at h
      generalize Exec.evaluate e m = r at h hmem
      cases r with
      | ok v k => cases h
      | error e k =>
        cases h
        exact hmem

/-- A program binds the names that it declares outside its blocks, as far as it gets. -/
theorem mem_innermost_execAll (program : List Stmt) (m : Machine) (name : String) :
    name ∈ (finalState (execAll program m)).scopes.innermost ↔
      name ∈ m.scopes.innermost ∨ name ∈ declaredInAll (completed program m) := by
  induction program generalizing m with
  | nil =>
    rw [execAll, completed]
    simp [finalState, declaredInAll, pure, EStateM.pure]
  | cons s rest ih =>
    rw [execAll_cons, completed]
    cases h : s.exec m with
    | ok v m' =>
      have hdeclared : name ∈ declaredInAll (s :: completed rest m') ↔
          name ∈ s.declared? ∨ name ∈ declaredInAll (completed rest m') := by
        simp [declaredInAll]
      rw [ih m', mem_innermost_of_exec_ok h, hdeclared, or_assoc]
    | error e m' =>
      simpa [declaredInAll, finalState] using mem_innermost_of_exec_error h name

/-- The size of a scope is the number of names bound in it. -/
theorem size_eq_card {scope : Scope} {names : List String} (h : ∀ name, name ∈ scope ↔ name ∈ names) :
    scope.size = names.toFinset.card := by
  have hkeys : scope.keys.toFinset = names.toFinset := by
    ext name
    rw [List.mem_toFinset, List.mem_toFinset, Std.TreeMap.mem_keys, h]
  rw [← hkeys, List.toFinset_card_of_nodup Std.TreeMap.nodup_keys, Std.TreeMap.length_keys]

end Innermost

/-! ### The log -/

theorem toList_log_record (m : Machine) (event : Event) :
    (m.record event).log.toList = m.log.toList ++ [event] :=
  Array.toList_push

theorem toList_log_leave {m : Machine} {depth : Nat} (h : m.scopes.depth = depth + 1) :
    m.leave.log.toList = m.log.toList ++ [.leftScope depth m.scopes.innermost.size] := by
  have hne : m.scopes.depth ≠ 0 := by omega
  have hpop : m.scopes.pop.depth = depth := by rw [Scopes.depth_pop, h, Nat.add_sub_cancel]
  rw [Machine.leave, if_neg hne, toList_log_record, hpop]

theorem confined_sameLog_evaluate (e : Expr) : Confined Machine.SameLog (Exec.evaluate e) := by
  intro m
  rw [Exec.evaluate]
  cases e.eval m.scopes <;> rfl

theorem confined_sameLog_printLine (line : UInt32) (v : Value) :
    Confined Machine.SameLog (Exec.printLine line v) := by
  intro m
  rw [Exec.printLine]
  obtain ⟨output, cause⟩ := m.output.writeLine v.text
  cases cause <;> rfl

/-- Only blocks record anything. -/
theorem confined_sameLog_exec {s : Stmt} (h : ∀ body, s ≠ block body) : Confined Machine.SameLog s.exec := by
  cases s with
  | block body => exact absurd rfl (h body)
  | expr e =>
    rw [exec]
    exact (confined_sameLog_evaluate e).bind .trans fun _ _ => rfl
  | print e line =>
    rw [exec]
    exact (confined_sameLog_evaluate e).bind .trans (confined_sameLog_printLine line)
  | declare name initializer =>
    cases initializer with
    | none =>
      rw [exec]
      exact fun _ => rfl
    | some e =>
      rw [exec]
      exact (confined_sameLog_evaluate e).bind .trans fun _ _ => rfl

/-- Other statements than blocks have no events. -/
theorem log_exec_of_not_block {s : Stmt} (h : ∀ body, s ≠ block body) (m : Machine) :
    (finalState (s.exec m)).log.toList = m.log.toList ++ Visit.eventsOfAll m.scopes.depth (s.visits m) := by
  have hlog : (finalState (s.exec m)).log = m.log := confined_sameLog_exec h m
  have hvisits : s.visits m = [] := by
    cases s with
    | block body => exact absurd rfl (h body)
    | expr | print | declare => rw [visits]
  rw [hlog, hvisits, Visit.eventsOfAll, List.append_nil]

mutual

/-- A run records the events of the blocks that it enters, wherever it ends. -/
theorem log_exec : (s : Stmt) → (m : Machine) →
    (finalState (s.exec m)).log.toList = m.log.toList ++ Visit.eventsOfAll m.scopes.depth (s.visits m)
  | .block body, m => by
    have hdepth : (finalState (execAll body m.enter)).scopes.depth = m.scopes.depth + 1 :=
      (scopes_changedBy_execAll body m.enter).depth_eq
    have hsize : (finalState (execAll body m.enter)).scopes.innermost.size =
        (declaredInAll (completed body m.enter)).toFinset.card := by
      refine size_eq_card fun name => ?_
      rw [mem_innermost_execAll, or_iff_right]
      exact Std.TreeMap.not_mem_emptyc
    have henter : m.enter.log.toList = m.log.toList ++ [.enteredScope (m.scopes.depth + 1)] :=
      toList_log_record _ _
    rw [exec, finalState_inNewScope, toList_log_leave hdepth, log_execAll body m.enter, henter, hsize, visits]
    simp [Visit.eventsOfAll, Visit.events]
  | .expr e, m => log_exec_of_not_block (fun _ => Stmt.noConfusion) m
  | .print e line, m => log_exec_of_not_block (fun _ => Stmt.noConfusion) m
  | .declare name initializer, m => log_exec_of_not_block (fun _ => Stmt.noConfusion) m

theorem log_execAll : (program : List Stmt) → (m : Machine) →
    (finalState (execAll program m)).log.toList =
      m.log.toList ++ Visit.eventsOfAll m.scopes.depth (visitsOfAll program m)
  | [], m => by
    rw [execAll, visitsOfAll, Visit.eventsOfAll, List.append_nil]
    rfl
  | s :: rest, m => by
    have hfirst := log_exec s m
    have hdepth := (scopes_changedBy_execAll [s] m).depth_eq
    rw [execAll_cons, visitsOfAll, Visit.eventsOfAll_append]
    rw [execAll_cons] at hdepth
    cases h : s.exec m with
    | ok v m' =>
      rw [h] at hfirst hdepth
      have hm' : m'.scopes.depth = m.scopes.depth := hdepth
      have hlog : m'.log.toList = _ := hfirst
      rw [log_execAll rest m', hlog, hm', List.append_assoc]
    | error e m' =>
      rw [h] at hfirst
      rw [Visit.eventsOfAll, List.append_nil]
      exact hfirst

end
end Stmt

/-- The events that a run adds to the log are those of the scopes of its blocks, and then its fault, if it
has one. Each execution of a block has its pair of events around those of the blocks within; the event of
leaving a scope tells how many different names were declared directly in the block by statements that were run
to their end. From the depth at which the run begins, the events lead up and down by one, and back to it. -/
theorem execute_records_scopes (program : List Stmt) (m : Machine) :
    let result := execute program m
    let depth := m.scopes.depth
    let scopeEvents := Visit.eventsOfAll depth (Stmt.visitsOfAll program m)
    (finalState result).log.toList =
        m.log.toList ++ scopeEvents ++ (Ending.ofResult result).error.toList.map .runtimeError ∧
      depthAfter? depth scopeEvents = some depth ∧
      (finalState result).scopes.depth = depth := by
  intro result depth scopeEvents
  have hlog := Stmt.log_execAll program m
  have hdepth := (Stmt.scopes_changedBy_execAll program m).depth_eq
  have hbalanced := depthAfter?_eventsOfAll depth [] (Stmt.visitsOfAll program m)
  rw [List.append_nil] at hbalanced
  have hresult : result = execute program m := rfl
  rw [execute] at hresult
  generalize Stmt.execAll program m = r at hlog hdepth hresult
  rw [hresult]
  cases r with
  | ok v m' =>
    refine ⟨?_, hbalanced, hdepth⟩
    exact hlog.trans (List.append_nil _).symm
  | error e m' =>
    refine ⟨?_, hbalanced, hdepth⟩
    change (m'.record (.runtimeError e)).log.toList = _ ++ [Event.runtimeError e]
    rw [Stmt.toList_log_record]
    exact congrArg (· ++ [Event.runtimeError e]) hlog

/-- The name `a` is declared twice and counts once; `d` is not reached. -/
example :
    let name (lexeme : String) : Token := ⟨.identifier, lexeme, none, 1⟩
    let inner := Stmt.block [.declare (name "b") none, .expr (.var (name "c")), .declare (name "d") none]
    let program := [Stmt.block [.declare (name "a") none, .declare (name "a") none, inner]]
    (finalState (execute program {})).log.toList =
      [.enteredScope 1, .enteredScope 2, .leftScope 1 1, .leftScope 0 1,
        .runtimeError ⟨1, .undefinedVariable "c"⟩] := by
  decide +kernel

end BlockScript
