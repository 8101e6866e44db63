import BlockScript.Proofs.BindingChanges

/-!
# Renaming the variables of a block

A variable that a block declares can be given another name from there on. The two stores differ in the
block's own scope, and in the scopes that are entered while it is open, and in these only by the name;
below they are the same, and nothing that the renamed statements do there depends on the name.
-/
namespace BlockScript

/-- The name that a name becomes when `x` is renamed to `y`. -/
def renamed (x y name : String) : String := if name = x then y else name

theorem renamed_self (x y : String) : renamed x y x = y := if_pos rfl

theorem renamed_of_ne {x y name : String} (h : name ≠ x) : renamed x y name = name := if_neg h

/-- Off the new name a renaming confuses nothing. -/
theorem renamed_inj {x y name other : String} (hname : name ≠ y) (hother : other ≠ y) :
    renamed x y name = renamed x y other ↔ name = other := by
  unfold renamed
  grind

def Relabeling.rename (x y : String) : Relabeling where
  name t := { t with lexeme := renamed x y t.lexeme }
  line := id

theorem RuntimeError.relabel_rename (x y : String) (e : RuntimeError) : e.relabel (.rename x y) = e := rfl

/-! ### Scopes -/

/-- The second scope is the first one with `x` renamed to `y`. What they bind `y` to is left open. -/
def Scope.Renamed (x y : String) (scope scope' : Scope) : Prop :=
  ∀ name, name ≠ y → scope'[renamed x y name]? = scope[name]?

namespace Scope.Renamed
variable {x y name : String} {scope scope' : Scope}

theorem empty (x y : String) : Scope.Renamed x y ∅ ∅ := by
  intro name _
  rw [Std.TreeMap.getElem?_emptyc, Std.TreeMap.getElem?_emptyc]

/-- A new variable by either name. -/
theorem declared (x y : String) (scope : Scope) (v : Value) :
    Scope.Renamed x y (scope.insert x v) (scope.insert y v) := by
  intro name hname
  by_cases h : name = x
  · rw [h, renamed_self, Std.TreeMap.getElem?_insert_self, Std.TreeMap.getElem?_insert_self]
  · rw [renamed_of_ne h, Std.TreeMap.getElem?_insert, Std.TreeMap.getElem?_insert]
    rw [if_neg (by simpa using Ne.symm hname), if_neg (by simpa using Ne.symm h)]

theorem contains (h : Scope.Renamed x y scope scope') (hname : name ≠ y) :
    scope'.contains (renamed x y name) = scope.contains name := by
  rw [Std.TreeMap.contains_eq_isSome_getElem?, Std.TreeMap.contains_eq_isSome_getElem?, h name hname]

theorem insert (h : Scope.Renamed x y scope scope') (hname : name ≠ y) (v : Value) :
    Scope.Renamed x y (scope.insert name v) (scope'.insert (renamed x y name) v) := by
  intro other hother
  have hsame := renamed_inj (x := x) hname hother
  rw [Std.TreeMap.getElem?_insert, Std.TreeMap.getElem?_insert, h other hother]
  simp only [Std.LawfulEqCmp.compare_eq_iff_eq, hsame]

end Scope.Renamed

/-- Scopes before and after a renaming of the variable `x` of a block that is still open; the `n` innermost
ones were entered in the block. -/
inductive RenamedScopes (x y : String) : Nat → List Scope → List Scope → Prop where
  | block {scope scope' : Scope} {outer : List Scope} (hbound : scope.contains x)
      (h : scope.Renamed x y scope') (houter : outer ≠ []) :
      RenamedScopes x y 0 (scope :: outer) (scope' :: outer)
  | entered {n : Nat} {scope scope' : Scope} {rest rest' : List Scope} (h : scope.Renamed x y scope')
      (hrest : RenamedScopes x y n rest rest') :
      RenamedScopes x y (n + 1) (scope :: rest) (scope' :: rest')

namespace RenamedScopes
variable {x y name : String} {n : Nat} {scopes scopes' : List Scope}

theorem findSome? (h : RenamedScopes x y n scopes scopes') (hname : name ≠ y) :
    (scopes'.findSome? fun scope => scope[renamed x y name]?) =
      scopes.findSome? fun scope => scope[name]? := by
  induction h with
  | @block scope scope' outer hbound h houter =>
    rw [List.findSome?_cons, List.findSome?_cons, h name hname]
    cases hscope : scope[name]? with
    | some v => rfl
    | none =>
      have hx : name ≠ x := by
        rintro rfl
        rw [Std.TreeMap.contains_eq_isSome_getElem?, hscope] at hbound
        cases hbound
      rw [renamed_of_ne hx]
  | entered h hrest ih =>
    rw [List.findSome?_cons, List.findSome?_cons, h name hname, ih]

/-- The renamed variable is bound as long as its block is open. -/
theorem isSome (h : RenamedScopes x y n scopes scopes') :
    (scopes.findSome? fun scope => scope[x]?).isSome := by
  induction h with
  | block hbound h houter =>
    rw [Std.TreeMap.contains_eq_isSome_getElem?] at hbound
    obtain ⟨v, hv⟩ := Option.isSome_iff_exists.1 hbound
    rw [List.findSome?_cons, hv]
    rfl
  | @entered n scope scope' rest rest' h hrest ih =>
    rw [List.findSome?_cons]
    cases scope[x]? with
    | some v => rfl
    | none => exact ih

theorem rebind? (h : RenamedScopes x y n scopes scopes') (hname : name ≠ y) {v : Value}
    {after : List Scope} (hafter : Scopes.rebind? name v scopes = some after) :
    ∃ after', Scopes.rebind? (renamed x y name) v scopes' = some after' ∧
      RenamedScopes x y n after after' := by
  induction h generalizing after with
  | @block scope scope' outer hbound h houter =>
    rw [Scopes.rebind?] at hafter
    rw [Scopes.rebind?, h.contains hname]
    split at hafter
    · next hscope =>
      obtain rfl := Option.some.inj hafter
      refine ⟨scope'.insert (renamed x y name) v :: outer, if_pos hscope, ?_⟩
      refine block ?_ (h.insert hname v) houter
      rw [Std.TreeMap.contains_insert, hbound, Bool.or_true]
    · next hscope =>
      -- the block's own scope binds `x`, so that it is another name which is bound further out
      have hx : name ≠ x := by
        rintro rfl
        exact hscope hbound
      obtain ⟨outer', houter', rfl⟩ := Option.map_eq_some_iff.1 hafter
      refine ⟨scope' :: outer', ?_, block hbound h ?_⟩
      · rw [if_neg hscope, renamed_of_ne hx, houter', Option.map_some]
      · rw [← List.length_pos_iff, Scopes.length_rebind? houter', List.length_pos_iff]
        exact houter
  | @entered n scope scope' rest rest' h hrest ih =>
    rw [Scopes.rebind?] at hafter
    rw [Scopes.rebind?, h.contains hname]
    split at hafter
    · next hscope =>
      obtain rfl := Option.some.inj hafter
      exact ⟨_, if_pos hscope, entered (h.insert hname v) hrest⟩
    · next hscope =>
      obtain ⟨after, hrest', rfl⟩ := Option.map_eq_some_iff.1 hafter
      obtain ⟨after', hafter', hrenamed⟩ := ih hrest'
      refine ⟨scope' :: after', ?_, entered h hrenamed⟩
      rw [if_neg hscope, hafter', Option.map_some]

theorem define {s t : Scopes} (h : RenamedScopes x y n s.toList t.toList) (hname : name ≠ y) (v : Value) :
    RenamedScopes x y n (s.define name v).toList (t.define (renamed x y name) v).toList := by
  obtain ⟨scope, outer⟩ := s
  obtain ⟨scope', outer'⟩ := t
  cases h with
  | block hbound h houter =>
    have hstill : (scope.insert name v).contains x := by
      rw [Std.TreeMap.contains_insert, hbound, Bool.or_true]
    exact block hstill (h.insert hname v) houter
  | entered h hrest => exact entered (h.insert hname v) hrest

theorem assign {s t s' : Scopes} (h : RenamedScopes x y n s.toList t.toList) (hname : name ≠ y) {v : Value}
    (hs : s.assign? name v = some s') :
    ∃ t', t.assign? (renamed x y name) v = some t' ∧ RenamedScopes x y n s'.toList t'.toList := by
  have hrebind : Scopes.rebind? name v s.toList = some s'.toList := by
    rw [← Scopes.map_toList_assign?, hs, Option.map_some]
  obtain ⟨after, hafter, hrenamed⟩ := h.rebind? hname hrebind
  rw [← Scopes.map_toList_assign?] at hafter
  obtain ⟨t', ht, rfl⟩ := Option.map_eq_some_iff.1 hafter
  exact ⟨t', ht, hrenamed⟩

theorem pop {s t : Scopes} (h : RenamedScopes x y (n + 1) s.toList t.toList) :
    RenamedScopes x y n s.pop.toList t.pop.toList := by
  obtain ⟨scope, outer⟩ := s
  obtain ⟨scope', outer'⟩ := t
  cases h with
  | entered _ hrest =>
    have hafter := hrest
    cases hrest with
    | block => exact hafter
    | entered => exact hafter

/-- Nothing is left of the renaming when the block is left. -/
theorem pop_eq {s t : Scopes} (h : RenamedScopes x y 0 s.toList t.toList) : s.pop = t.pop := by
  obtain ⟨scope, outer⟩ := s
  obtain ⟨scope', outer'⟩ := t
  cases h with
  | block hbound h houter =>
    cases outer with
    | nil => exact absurd rfl houter
    | cons next outer => rfl

end RenamedScopes

theorem simulates_rename (x y : String) :
    Simulates (.rename x y) (fun name => name.lexeme ≠ y)
      (fun n s t => RenamedScopes x y n s.toList t.toList) where
  line _ := rfl
  get? hR hname := hR.findSome? hname
  unbound {n s t name} hR hname hnone := by
    refine renamed_of_ne fun hx => ?_
    have hbound := hR.isSome
    rw [← hx] at hbound
    rw [Scopes.get?] at hnone
    rw [hnone] at hbound
    cases hbound
  define v hR hname := hR.define hname v
  assign hR hname hs := hR.assign hname hs
  push hR := .entered (.empty x y) hR
  pop hR := hR.pop

/-! ### Blocks -/

namespace Ending

theorem leave_of_follows {x y : String} {r r' : EStateM.Result RuntimeError Machine Unit}
    (h : Follows (.rename x y)
      (Machine.Related fun s t => RenamedScopes x y 0 s.toList t.toList) r r') :
    (ofResult r').leave = (ofResult r).leave := by
  cases h with
  | ok v hm =>
    rw [ofResult, ofResult, leave, leave, hm.output, hm.scopes.pop_eq]
  | error e hm =>
    rw [ofResult, ofResult, leave, leave, hm.output, hm.scopes.pop_eq, RuntimeError.relabel_rename]

/-- A declaration fails in its initializer, whatever the name, or binds the name to a value that does not
depend on it. -/
theorem ofProgram_declare (initializer : Option Expr) (m : Machine) :
    (∃ e scopes output, ∀ name : Token,
      ofProgram [.declare name initializer] m = ⟨some e, scopes, output⟩) ∨
    ∃ v, ∃ scopes : Scopes, ∃ output, ∀ name : Token,
      ofProgram [.declare name initializer] m = ⟨none, scopes.define name.lexeme v, output⟩ := by
  cases initializer with
  | none =>
    refine .inr ⟨Value.nil, m.scopes, m.output, fun name => ?_⟩
    rw [ofProgram, Stmt.execAll, Stmt.execAll, Stmt.exec]
    rfl
  | some e =>
    cases he : Exec.evaluate e m with
    | ok v m' =>
      refine .inr ⟨v, m'.scopes, m'.output, fun name => ?_⟩
      rw [ofProgram, Stmt.execAll, Stmt.execAll, Stmt.exec]
      simp only [bind, EStateM.bind, he]
      rfl
    | error e m' =>
      refine .inl ⟨e, m'.scopes, m'.output, fun name => ?_⟩
      rw [ofProgram, Stmt.execAll, Stmt.execAll, Stmt.exec]
      simp only [bind, EStateM.bind, he]
      rfl

theorem ofProgram_declare_rename {post : List Stmt} {y : String}
    (hy : ∀ name ∈ Stmt.namesOfAll post, name.lexeme ≠ y) (name : Token) (initializer : Option Expr)
    {m : Machine} (hm : m.scopes.depth ≠ 0) :
    (ofProgram (.declare ((Relabeling.rename name.lexeme y).name name) initializer ::
        Stmt.relabelAll (.rename name.lexeme y) post) m).leave =
      (ofProgram (.declare name initializer :: post) m).leave := by
  rw [ofProgram_cons _ (Stmt.relabelAll _ post), ofProgram_cons _ post]
  have hdepth := depth_ofProgram [.declare name initializer] m
  obtain ⟨e, scopes, output, h⟩ | ⟨v, scopes, output, h⟩ := ofProgram_declare initializer m
  · rw [h, h]
  · rw [h] at hdepth
    rw [h, h]
    refine leave_of_follows ((simulates_rename name.lexeme y).execAll post hy ⟨?_, rfl⟩)
    change RenamedScopes name.lexeme y 0
      (scopes.innermost.insert name.lexeme v :: scopes.enclosing)
      (scopes.innermost.insert (renamed name.lexeme y name.lexeme) v :: scopes.enclosing)
    rw [renamed_self]
    refine .block Std.TreeMap.contains_insert_self (.declared name.lexeme y scopes.innermost v) ?_
    intro henclosing
    rw [← hdepth, Scopes.depth_define, Scopes.depth, henclosing] at hm
    exact hm rfl

end Ending

/-- A block ends in the same way when a variable of it has another name from its declaration on, if that
name does not occur there. -/
theorem Stmt.exec_block_rename {post : List Stmt} {y : String}
    (hy : ∀ name ∈ namesOfAll post, name.lexeme ≠ y) (pre : List Stmt) (name : Token)
    (initializer : Option Expr) (m : Machine) :
    let f := Relabeling.rename name.lexeme y
    Ending.ofResult ((block (pre ++ declare (f.name name) initializer :: relabelAll f post)).exec m) =
      Ending.ofResult ((block (pre ++ declare name initializer :: post)).exec m) := by
  intro f
  rw [exec, exec, Ending.ofResult_inNewScope, Ending.ofResult_inNewScope]
  change (Ending.ofProgram _ m.enter).leave = (Ending.ofProgram _ m.enter).leave
  rw [Ending.ofProgram_append, Ending.ofProgram_append]
  have hdepth := Ending.depth_ofProgram pre m.enter
  generalize Ending.ofProgram pre m.enter = e at hdepth
  obtain ⟨error, scopes, output⟩ := e
  cases error with
  | some error => rfl
  | none =>
    refine Ending.ofProgram_declare_rename hy name initializer ?_
    rw [hdepth, Machine.scopes_enter, Scopes.depth_push]
    exact Nat.succ_ne_zero m.scopes.depth

/-- Below a global `a`, the block `{ var a = a; { print a; var a; } a = true; }` ends as
`{ var b = a; { print b; var b; } b = true; }`. -/
theorem Stmt.exec_block_rename_shadowing :
    let a : Token := ⟨.identifier, "a", none, 1⟩
    let b : Token := ⟨.identifier, "b", none, 1⟩
    let body (name : Token) : List Stmt :=
      [declare name (some (.var a)), block [print (.var name) 1, declare name none],
        expr (.assign name (.literal (.bool true)))]
    let m := Machine.define {} "a" .nil
    Ending.ofResult ((block (body b)).exec m) = Ending.ofResult ((block (body a)).exec m) := by
  intro a b body m
  have hy : ∀ name ∈ namesOfAll (body a).tail, name.lexeme ≠ "b" := by decide
  exact exec_block_rename hy [] a (some (.var a)) m

end BlockScript
