import Mathlib.Data.List.Forall2
import BlockScript.Proofs.Endings

/-!
# What runs change

A run changes only what its program names, whether it fails or not. A scope keeps its bindings; other values
are given to the names that the program assigns to. Only in the innermost scope new names are bound, and
these are the ones that are declared outside the blocks of the program.
-/
namespace BlockScript

/-! ### Programs -/

/-- The names that an expression assigns to. -/
def Expr.assigned : Expr → List String
  | .literal _ | .var _ => []
  | .grouping e | .unary _ _ e => e.assigned
  | .binary l _ _ r => l.assigned ++ r.assigned
  | .assign name e => name.lexeme :: e.assigned

namespace Stmt

/-- The names that are assigned to anywhere in a program. -/
def assignedInAll (program : List Stmt) : List String := (expressionsOfAll program).flatMap Expr.assigned

theorem assigned_subset {program : List Stmt} {e : Expr} (he : e ∈ expressionsOfAll program) :
    e.assigned ⊆ assignedInAll program :=
  fun _ hname => List.mem_flatMap.2 ⟨e, he, hname⟩

/-- The name that a statement binds in the scope in which it runs. -/
def declared? : Stmt → Option String
  | .declare name _ => some name.lexeme
  | .block _ | .expr _ | .print _ _ => none

/-- The names that a program declares outside its blocks. -/
def declaredInAll (program : List Stmt) : List String := program.filterMap declared?

end Stmt

/-! ### Scopes -/

/-- The scope `after` is `before` with other values for the assigned names, and with other values or first
ones for the declared names. -/
structure Scope.ChangedBy (assigned declared : List String) (before after : Scope) : Prop where
  keeps : ∀ name ∈ before, name ∈ after
  binds : ∀ name ∈ after, name ∈ before ∨ name ∈ declared
  values : ∀ name, after[name]? ≠ before[name]? → name ∈ assigned ∨ name ∈ declared

/-- The changes by a program that runs in the innermost scope. -/
structure Scopes.ChangedBy (assigned declared : List String) (before after : Scopes) : Prop where
  innermost : before.innermost.ChangedBy assigned declared after.innermost
  enclosing : List.Forall₂ (Scope.ChangedBy assigned []) before.enclosing after.enclosing

section Scopes
variable {assigned declared declared' : List String} {name : String} {v : Value}

namespace Scope.ChangedBy
variable {s t u : Scope}

theorem refl (assigned declared : List String) (s : Scope) : s.ChangedBy assigned declared s where
  keeps _ h := h
  binds _ h := .inl h
  values _ h := absurd rfl h

theorem trans (h : s.ChangedBy assigned declared t) (h' : t.ChangedBy assigned declared u) :
    s.ChangedBy assigned declared u where
  keeps name hname := h'.keeps name (h.keeps name hname)
  binds name hname := (h'.binds name hname).elim (h.binds name) .inr
  values name hname := by
    by_cases ht : t[name]? = s[name]?
    · exact h'.values name (ht ▸ hname)
    · exact h.values name ht

theorem mono (h : s.ChangedBy assigned declared t) (hdeclared : declared ⊆ declared') :
    s.ChangedBy assigned declared' t where
  keeps := h.keeps
  binds name hname := (h.binds name hname).imp_right (hdeclared ·)
  values name hname := (h.values name hname).imp_right (hdeclared ·)

/-- Without declarations the same names are bound. -/
theorem mem_iff (h : s.ChangedBy assigned [] t) (name : String) : name ∈ t ↔ name ∈ s := by
  refine ⟨fun hname => ?_, h.keeps name⟩
  rcases h.binds name hname with hname | hname
  · exact hname
  · cases hname

theorem values_insert (hname : name ∈ assigned ∨ name ∈ declared) (other : String)
    (hother : (s.insert name v)[other]? ≠ s[other]?) : other ∈ assigned ∨ other ∈ declared := by
  rw [Std.TreeMap.getElem?_insert] at hother
  split at hother
  · next heq => exact Std.LawfulEqCmp.eq_of_compare heq ▸ hname
  · exact absurd rfl hother

/-- A bound name gets another value. -/
theorem insert_bound (hbound : name ∈ s) (hname : name ∈ assigned) :
    s.ChangedBy assigned declared (s.insert name v) where
  keeps other hother := Std.TreeMap.mem_insert.2 (.inr hother)
  binds other hother := by
    rcases Std.TreeMap.mem_insert.1 hother with heq | hother
    · exact .inl (Std.LawfulEqCmp.eq_of_compare heq ▸ hbound)
    · exact .inl hother
  values := values_insert (.inl hname)

theorem insert_declared (hname : name ∈ declared) : s.ChangedBy assigned declared (s.insert name v) where
  keeps other hother := Std.TreeMap.mem_insert.2 (.inr hother)
  binds other hother := by
    rcases Std.TreeMap.mem_insert.1 hother with heq | hother
    · exact .inr (Std.LawfulEqCmp.eq_of_compare heq ▸ hname)
    · exact .inl hother
  values := values_insert (.inr hname)

end Scope.ChangedBy

theorem forall₂_changedBy_refl (assigned : List String) (scopes : List Scope) :
    List.Forall₂ (Scope.ChangedBy assigned []) scopes scopes :=
  List.forall₂_same.2 fun scope _ => .refl assigned [] scope

theorem forall₂_changedBy_trans {ss ts us : List Scope}
    (h : List.Forall₂ (Scope.ChangedBy assigned []) ss ts)
    (h' : List.Forall₂ (Scope.ChangedBy assigned []) ts us) :
    List.Forall₂ (Scope.ChangedBy assigned []) ss us := by
  induction h generalizing us with
  | nil => exact h'
  | cons hscope hrest ih =>
    cases h' with
    | cons hscope' hrest' => exact .cons (hscope.trans hscope') (ih hrest')

/-- An assignment binds no name in any scope. -/
theorem forall₂_changedBy_rebind? (hname : name ∈ assigned) {scopes after : List Scope}
    (h : Scopes.rebind? name v scopes = some after) :
    List.Forall₂ (Scope.ChangedBy assigned []) scopes after := by
  induction scopes generalizing after with
  | nil => cases h
  | cons scope rest ih =>
    rw [Scopes.rebind?] at h
    split at h
    · next hbound =>
      obtain rfl := Option.some.inj h
      exact .cons (.insert_bound (Std.TreeMap.mem_iff_contains.2 hbound) hname)
        (forall₂_changedBy_refl assigned rest)
    · obtain ⟨rest', hrest, rfl⟩ := Option.map_eq_some_iff.1 h
      exact .cons (.refl assigned [] scope) (ih hrest)

namespace Scopes.ChangedBy
variable {s t u : Scopes}

theorem refl (assigned declared : List String) (s : Scopes) : s.ChangedBy assigned declared s :=
  ⟨.refl assigned declared s.innermost, forall₂_changedBy_refl assigned s.enclosing⟩

theorem trans (h : s.ChangedBy assigned declared t) (h' : t.ChangedBy assigned declared u) :
    s.ChangedBy assigned declared u :=
  ⟨h.innermost.trans h'.innermost, forall₂_changedBy_trans h.enclosing h'.enclosing⟩

/-- Changes that bind no name are changes by any program that assigns to the same names. -/
theorem of_forall₂ (h : List.Forall₂ (Scope.ChangedBy assigned []) s.toList t.toList) :
    s.ChangedBy assigned declared t := by
  cases h with
  | cons hinnermost henclosing => exact ⟨hinnermost.mono (List.nil_subset declared), henclosing⟩

theorem define (hname : name ∈ declared) : s.ChangedBy assigned declared (s.define name v) :=
  ⟨.insert_declared hname, forall₂_changedBy_refl assigned s.enclosing⟩

theorem assign (hname : name ∈ assigned) (h : s.assign? name v = some t) :
    s.ChangedBy assigned declared t := by
  have hrebind : Scopes.rebind? name v s.toList = some t.toList := by
    rw [← Scopes.map_toList_assign?, h, Option.map_some]
  exact of_forall₂ (forall₂_changedBy_rebind? hname hrebind)

/-- What a block binds in its own scope is gone when the block is left. -/
theorem pop (h : s.push.ChangedBy assigned declared' t) : s.ChangedBy assigned declared t.pop := by
  have henclosing : List.Forall₂ (Scope.ChangedBy assigned []) s.toList t.enclosing := h.enclosing
  obtain ⟨scope, enclosing⟩ := t
  cases enclosing with
  | nil => cases henclosing
  | cons next rest => exact of_forall₂ henclosing

theorem depth_eq (h : s.ChangedBy assigned declared t) : t.depth = s.depth :=
  h.enclosing.length_eq.symm

end Scopes.ChangedBy
end Scopes

/-! ### Runs -/

/-- The state in which a run ends, whether it fails or not. -/
def finalState {α σ : Type} : EStateM.Result RuntimeError σ α → σ
  | .ok _ s | .error _ s => s

/-- Wherever it starts, a run ends in a state that is related to the first one. -/
def Confined {α σ : Type} (R : σ → σ → Prop) (run : EStateM RuntimeError σ α) : Prop :=
  ∀ s, R s (finalState (run s))

theorem Confined.bind {α β σ : Type} {R : σ → σ → Prop} {run : EStateM RuntimeError σ α}
    {k : α → EStateM RuntimeError σ β} (htrans : ∀ {s t u}, R s t → R t u → R s u)
    (h : Confined R run) (hk : ∀ v, Confined R (k v)) : Confined R (run >>= k) := by
  intro s
  have hs := h s
  change R s (finalState (EStateM.bind run k s))
  rw [EStateM.bind]
  generalize run s = r at hs
  cases r with
  | ok v t => exact htrans hs (hk v t)
  | error e t => exact hs

/-- The changes between two states of a machine. -/
def Machine.ChangedBy (assigned declared : List String) (before after : Machine) : Prop :=
  before.scopes.ChangedBy assigned declared after.scopes

section Runs
variable {assigned declared : List String}

theorem confined_load (name : Token) : Confined (Scopes.ChangedBy assigned declared) (Eval.load name) := by
  intro s
  cases h : s.get? name.lexeme with
  | some v =>
    rw [Eval.load_of_bound h]
    exact .refl assigned declared s
  | none =>
    rw [Eval.load_of_unbound h]
    exact .refl assigned declared s

theorem confined_store {name : Token} (hname : name.lexeme ∈ assigned) (v : Value) :
    Confined (Scopes.ChangedBy assigned declared) (Eval.store name v) := by
  intro s
  cases h : s.assign? name.lexeme v with
  | some t =>
    rw [Eval.store_of_bound h]
    exact .assign hname h
  | none =>
    rw [Eval.store_of_unbound h]
    exact .refl assigned declared s

theorem confined_ofOperator (line : UInt32) (r : Except RuntimeFault Value) :
    Confined (Scopes.ChangedBy assigned declared) (Eval.ofOperator line r) := by
  intro s
  cases r with
  | ok v | error fault => exact .refl assigned declared s

theorem confined_eval {e : Expr} (he : e.assigned ⊆ assigned) :
    Confined (Scopes.ChangedBy assigned declared) e.eval := by
  induction e with
  | literal v => exact fun s => .refl assigned declared s
  | grouping e ih => exact ih he
  | unary op line e ih => exact (ih he).bind .trans fun v => confined_ofOperator line (op.apply v)
  | binary l op line r ihl ihr =>
    obtain ⟨hl, hr⟩ := List.append_subset.1 he
    exact (ihl hl).bind .trans fun x =>
      (ihr hr).bind .trans fun y => confined_ofOperator line (op.apply x y)
  | var name => exact confined_load name
  | assign name e ih =>
    obtain ⟨hname, he⟩ := List.cons_subset.1 he
    exact (ih he).bind .trans (confined_store hname)

theorem confined_evaluate {e : Expr} (he : e.assigned ⊆ assigned) :
    Confined (Machine.ChangedBy assigned declared) (Exec.evaluate e) := by
  intro m
  have hscopes : m.scopes.ChangedBy assigned declared (finalState (e.eval m.scopes)) :=
    confined_eval he m.scopes
  rw [Exec.evaluate]
  generalize e.eval m.scopes = r at hscopes
  cases r with
  | ok v scopes | error e scopes => exact hscopes

theorem confined_printLine (line : UInt32) (v : Value) :
    Confined (Machine.ChangedBy assigned declared) (Exec.printLine line v) := by
  intro m
  rw [Exec.printLine]
  obtain ⟨output, cause⟩ := m.output.writeLine v.text
  cases cause with
  | none | some cause => exact .refl assigned declared m.scopes

theorem confined_define {name : String} (hname : name ∈ declared) (v : Value) :
    Confined (Machine.ChangedBy assigned declared) (modify (·.define name v) : Exec Unit) :=
  fun _ => .define hname

theorem confined_inNewScope {declared' : List String} {body : Exec Unit}
    (h : Confined (Machine.ChangedBy assigned declared') body) :
    Confined (Machine.ChangedBy assigned declared) (Exec.inNewScope body) := by
  intro m
  have hbody : m.scopes.push.ChangedBy assigned declared' (finalState (body m.enter)).scopes := h m.enter
  rw [Exec.inNewScope]
  generalize body m.enter = r at hbody
  cases r with
  | ok v m' | error e m' =>
    change m.scopes.ChangedBy assigned declared m'.leave.scopes
    rw [Machine.scopes_leave]
    exact hbody.pop

mutual

theorem confined_exec {declared : List String} : (s : Stmt) → (∀ e ∈ s.expressions, e.assigned ⊆ assigned) →
    (∀ name ∈ s.declared?, name ∈ declared) → Confined (Machine.ChangedBy assigned declared) s.exec
  | .block body, he, _ => by
    rw [Stmt.exec]
    exact confined_inNewScope (confined_execAll body he (List.Subset.refl (Stmt.declaredInAll body)))
  | .expr e, he, _ => by
    rw [Stmt.exec]
    exact (confined_evaluate (he e List.mem_cons_self)).bind .trans fun _ m =>
      .refl assigned declared m.scopes
  | .print e line, he, _ => by
    rw [Stmt.exec]
    exact (confined_evaluate (he e List.mem_cons_self)).bind .trans (confined_printLine line)
  | .declare name none, _, hd => by
    rw [Stmt.exec]
    exact confined_define (hd name.lexeme rfl) .nil
  | .declare name (some e), he, hd => by
    rw [Stmt.exec]
    exact (confined_evaluate (he e List.mem_cons_self)).bind .trans (confined_define (hd name.lexeme rfl))

theorem confined_execAll {declared : List String} : (program : List Stmt) →
    (∀ e ∈ Stmt.expressionsOfAll program, e.assigned ⊆ assigned) →
    Stmt.declaredInAll program ⊆ declared →
    Confined (Machine.ChangedBy assigned declared) (Stmt.execAll program)
  | [], _, _ => by
    rw [Stmt.execAll]
    exact fun m => .refl assigned declared m.scopes
  | s :: rest, he, hd => by
    rw [Stmt.execAll]
    have hfirst := confined_exec s (fun e hmem => he e (List.mem_append_left _ hmem)) fun name hname =>
      hd (List.mem_filterMap.2 ⟨s, List.mem_cons_self, hname⟩)
    have hsublist : (Stmt.declaredInAll rest).Sublist (Stmt.declaredInAll (s :: rest)) :=
      (List.sublist_cons_self s rest).filterMap Stmt.declared?
    have hrest := confined_execAll rest (fun e hmem => he e (List.mem_append_right _ hmem))
      (List.Subset.trans hsublist.subset hd)
    exact hfirst.bind .trans fun _ => hrest

end

end Runs

namespace Stmt

theorem scopes_changedBy_execAll (program : List Stmt) (m : Machine) :
    m.scopes.ChangedBy (assignedInAll program) (declaredInAll program)
      (finalState (execAll program m)).scopes :=
  confined_execAll program (fun _ he => assigned_subset he) (List.Subset.refl (declaredInAll program)) m

/-- Nothing is declared outside the blocks of a program that is one block. -/
theorem scopes_changedBy_exec_block (body : List Stmt) (m : Machine) :
    m.scopes.ChangedBy (assignedInAll body) [] (finalState ((block body).exec m)).scopes :=
  confined_exec (block body) (fun _ he => assigned_subset he) (fun _ h => by cases h) m

end Stmt

namespace Ending

theorem scopes_ofResult (r : EStateM.Result RuntimeError Machine Unit) :
    (ofResult r).scopes = (finalState r).scopes := by
  cases r <;> rfl

theorem scopes_ofResult_execute (program : List Stmt) (m : Machine) :
    (ofResult (execute program m)).scopes = (finalState (Stmt.execAll program m)).scopes := by
  rw [scopes_ofResult, execute]
  cases Stmt.execAll program m <;> rfl

/-- A program ends at the depth at which it began, whether it fails or not. -/
theorem depth_ofProgram (program : List Stmt) (m : Machine) :
    (ofProgram program m).scopes.depth = m.scopes.depth := by
  rw [ofProgram, scopes_ofResult]
  exact (Stmt.scopes_changedBy_execAll program m).depth_eq

end Ending

/-- A run leaves as many scopes as there were, and changes in them only what the program assigns to and what
it declares outside its blocks, whether it fails or not. In particular a block leaves in every scope the
names that were bound there. -/
theorem execute_changedBy (program : List Stmt) (m : Machine) :
    let after := (Ending.ofResult (execute program m)).scopes
    after.depth = m.scopes.depth ∧
      m.scopes.ChangedBy (Stmt.assignedInAll program) (Stmt.declaredInAll program) after ∧
      ∀ body : List Stmt, List.Forall₂ (fun before after : Scope => ∀ name, name ∈ after ↔ name ∈ before)
        m.scopes.toList (Ending.ofResult ((Stmt.block body).exec m)).scopes.toList := by
  intro after
  have hafter : after = (finalState (Stmt.execAll program m)).scopes :=
    Ending.scopes_ofResult_execute program m
  have hchanged := Stmt.scopes_changedBy_execAll program m
  rw [← hafter] at hchanged
  refine ⟨hchanged.depth_eq, hchanged, fun body => ?_⟩
  have hblock := Stmt.scopes_changedBy_exec_block body m
  rw [Ending.scopes_ofResult]
  exact .cons hblock.innermost.mem_iff (hblock.enclosing.imp fun _ _ h => h.mem_iff)

end BlockScript
