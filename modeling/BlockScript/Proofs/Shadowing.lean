import BlockScript.Scopes
import Mathlib.Data.List.Infix

/-! # Shadowing

A sequence of pushes, pops, definitions and assignments that begins with a push and ends with the pop that
closes it gives back the bindings that it found, except for those that an assignment has changed from
within: one that took place while no scope of the sequence bound the name.

The scopes of any moment in between fall into those that the sequence has opened and the kept ones below.
Only such an assignment escapes to the kept ones; all else happens above them. -/
namespace BlockScript.Scopes

/-- What a program does to its scopes. -/
inductive Action where
  | push
  | pop
  | define (name : String) (value : Value)
  | assign (name : String) (value : Value)

namespace Action

/-- An assignment to a name that is not bound has no effect. -/
def perform (s : Scopes) : Action → Scopes
  | push => s.push
  | pop => s.pop
  | define name value => s.define name value
  | assign name value => (s.assign? name value).getD s

/-- By how much the depth grows. -/
def rise : Action → Int
  | push => 1
  | pop => -1
  | define .. | assign .. => 0

/-- The new value of the name in a scope that was open at the base already: that of an assignment which
succeeds although no scope above the base binds the name. -/
def escape? (base : Nat) (name : String) (s : Scopes) : Action → Option Value
  | assign other value =>
    if other = name ∧ (s.assign? name value).isSome ∧ ∀ scope ∈ s.toList.take (s.depth - base), name ∉ scope
    then some value else none
  | push | pop | define .. => none

end Action

def performAll (s : Scopes) (actions : List Action) : Scopes := actions.foldl Action.perform s

def nesting : List Action → Int
  | [] => 0
  | action :: rest => action.rise + nesting rest

/-- Every push is closed, and every pop closes a push. -/
structure Balanced (actions : List Action) : Prop where
  never_below : ∀ before, before <+: actions → 0 ≤ nesting before
  closed : nesting actions = 0

/-- A push, what happens above its level, and the pop that closes it. -/
def Bracket (actions : List Action) : Prop :=
  ∃ body, Balanced body ∧ actions = .push :: (body ++ [.pop])

/-- The values which the actions give the name in scopes that were open at the base, from first to last. -/
def escapes (base : Nat) (name : String) : Scopes → List Action → List Value
  | _, [] => []
  | s, action :: rest =>
    (action.escape? base name s).toList ++ escapes base name (action.perform s) rest

variable {s t : Scopes} {base : Nat} {name other : String} {v : Value} {action : Action}
  {actions before : List Action}

/-! ### Depths -/

theorem depth_perform (h : 0 ≤ s.depth + action.rise) :
    ((action.perform s).depth : Int) = s.depth + action.rise := by
  cases action with
  | push => simp [Action.perform, Action.rise]
  | pop =>
    have hdepth : 1 ≤ s.depth := by
      simp only [Action.rise] at h
      omega
    simp only [Action.perform, Action.rise, depth_pop]
    omega
  | define name value => simp [Action.perform, Action.rise]
  | assign name value =>
    cases hassign : s.assign? name value with
    | none => simp [Action.perform, Action.rise, hassign]
    | some t => simp [Action.perform, Action.rise, hassign, depth_assign? hassign]

/-- As long as no pop is without effect, the depth follows the nesting of the actions. -/
theorem depth_performAll (h : ∀ before, before <+: actions → 0 ≤ s.depth + nesting before) :
    ((performAll s actions).depth : Int) = s.depth + nesting actions := by
  induction actions generalizing s with
  | nil => simp [performAll, nesting]
  | cons action rest ih =>
    have hfirst : 0 ≤ s.depth + action.rise := by
      simpa [nesting] using h [action] (List.prefix_append [action] rest)
    have hdepth := depth_perform hfirst
    have hrest : ((performAll (action.perform s) rest).depth : Int) =
        (action.perform s).depth + nesting rest := by
      refine ih fun before hbefore => ?_
      have hcons := h (action :: before) ((List.prefix_cons_inj action).2 hbefore)
      rw [nesting] at hcons
      omega
    change ((performAll (action.perform s) rest).depth : Int) = _
    rw [hrest, hdepth, nesting]
    omega

/-! ### The kept scopes -/

/-- The value of the name in the first of the scopes that binds it. -/
def found (name : String) (scopes : List Scope) : Option Value :=
  scopes.findSome? fun scope => scope[name]?

/-- The scopes that were open at the base already. -/
def kept (base : Nat) (s : Scopes) : List Scope := s.toList.drop (s.depth - base)

theorem found_eq_none_iff (name : String) (scopes : List Scope) :
    found name scopes = none ↔ ∀ scope ∈ scopes, name ∉ scope := by
  simp [found]

/-- A rebound name is found with its new value, and every other name as before. -/
theorem found_of_rebind? {scopes after : List Scope} (h : rebind? name v scopes = some after) :
    found other after = if name = other then some v else found other scopes := by
  induction scopes generalizing after with
  | nil => cases h
  | cons scope rest ih =>
    rw [rebind?] at h
    split at h
    · obtain rfl := Option.some.inj h
      by_cases heq : name = other
      · simp [found, heq]
      · simp [found, List.findSome?_cons, Std.TreeMap.getElem?_insert, heq]
    · next hbound =>
      obtain ⟨rest', hrest, rfl⟩ := Option.map_eq_some_iff.1 h
      have hfound := ih hrest
      by_cases heq : name = other
      · subst heq
        have hnone : scope[name]? = none := by simpa using hbound
        simpa [found, List.findSome?_cons, hnone] using hfound
      · simp only [heq, if_false] at hfound ⊢
        simp only [found, List.findSome?_cons] at hfound ⊢
        rw [hfound]

/-- Scopes in front are the ones to be searched first. -/
theorem rebind?_append (name : String) (v : Value) (front rest : List Scope) :
    rebind? name v (front ++ rest) =
      if found name front = none then (rebind? name v rest).map (front ++ ·)
      else (rebind? name v front).map (· ++ rest) := by
  induction front with
  | nil => simp [found]
  | cons scope front ih =>
    rw [List.cons_append, rebind?, rebind?]
    by_cases hbound : scope.contains name
    · have hfound : found name (scope :: front) ≠ none := by
        rw [Ne, found_eq_none_iff]
        exact fun h => h scope List.mem_cons_self (Std.TreeMap.mem_iff_contains.2 hbound)
      simp [hbound, hfound]
    · have hfound : found name (scope :: front) = found name front := by
        have hnone : scope[name]? = none := by simpa using hbound
        simp [found, hnone]
      rw [if_neg hbound, if_neg hbound, hfound, ih]
      split <;> simp [Function.comp_def]

theorem kept_push (h : base ≤ s.depth) : kept base s.push = kept base s := by
  have hdepth : s.depth + 1 - base = (s.depth - base) + 1 := by omega
  rw [kept, depth_push, hdepth, push, toList, List.drop_succ_cons, kept]

theorem toList_pop (h : 0 < s.depth) : s.pop.toList = s.enclosing := by
  obtain ⟨scope, enclosing⟩ := s
  cases enclosing with
  | nil => cases h
  | cons next rest => rfl

theorem kept_of_lt (h : base < s.depth) : kept base s = s.enclosing.drop (s.depth - 1 - base) := by
  have hdepth : s.depth - base = (s.depth - 1 - base) + 1 := by omega
  rw [kept, hdepth, toList, List.drop_succ_cons]

theorem kept_pop (h : base < s.depth) : kept base s.pop = kept base s := by
  rw [kept, toList_pop (by omega), depth_pop, kept_of_lt h]

theorem kept_define (h : base < s.depth) (name : String) (v : Value) :
    kept base (s.define name v) = kept base s := by
  rw [kept_of_lt h, kept_of_lt (s := s.define name v) h]
  rfl

/-- A successful assignment changes the kept scopes just if no scope above them binds the name. -/
theorem found_kept_assign? (hassign : s.assign? name v = some t) :
    found other (kept base t) =
      if name = other ∧ ∀ scope ∈ s.toList.take (s.depth - base), name ∉ scope then some v
      else found other (kept base s) := by
  have hrebind : rebind? name v s.toList = some t.toList := by
    rw [← map_toList_assign?, hassign, Option.map_some]
  have hlength : (s.toList.take (s.depth - base)).length = s.depth - base := by
    rw [List.length_take, toList, List.length_cons, ← depth]
    omega
  rw [← List.take_append_drop (s.depth - base) s.toList, rebind?_append] at hrebind
  simp only [← found_eq_none_iff]
  rw [kept, depth_assign? hassign]
  -- the scopes above are searched first, and their number stays the same
  split at hrebind
  · next habove =>
    obtain ⟨rest, hrest, heq⟩ := Option.map_eq_some_iff.1 hrebind
    have hkept : t.toList.drop (s.depth - base) = rest := by rw [← heq, List.drop_left' hlength]
    rw [hkept, found_of_rebind? hrest]
    simp [habove, kept]
  · next habove =>
    obtain ⟨front, hfront, heq⟩ := Option.map_eq_some_iff.1 hrebind
    have hkept : t.toList.drop (s.depth - base) = kept base s := by
      rw [← heq, List.drop_left' ((length_rebind? hfront).trans hlength), kept]
    simp [hkept, habove]

/-- One action above the base changes a kept binding just if it escapes. -/
theorem found_kept_perform (h : base < s.depth) (name : String) (action : Action) :
    found name (kept base (action.perform s)) =
      (action.escape? base name s).or (found name (kept base s)) := by
  cases action with
  | push => simp [Action.perform, Action.escape?, kept_push (Nat.le_of_lt h)]
  | pop => simp [Action.perform, Action.escape?, kept_pop h]
  | define other value => simp [Action.perform, Action.escape?, kept_define h]
  | assign other value =>
    simp only [Action.perform, Action.escape?]
    cases hassign : s.assign? other value with
    | none =>
      by_cases heq : other = name
      · subst heq
        simp [hassign]
      · simp [heq]
    | some t =>
      rw [Option.getD_some, found_kept_assign? hassign]
      by_cases heq : other = name
      · -- both sides ask whether a scope above binds the name
        subst heq
        simp only [hassign, Option.isSome_some, true_and]
        split <;> rfl
      · simp [heq]

/-- Actions that stay above the base leave a kept binding as the last of them to escape has set it. -/
theorem found_kept_performAll (h : ∀ before, before <+: actions → base < (performAll s before).depth)
    (name : String) :
    found name (kept base (performAll s actions)) =
      (escapes base name s actions).getLast?.or (found name (kept base s)) := by
  induction actions generalizing s with
  | nil => simp [performAll, escapes]
  | cons action rest ih =>
    have hbase : base < s.depth := h [] List.nil_prefix
    have hrest : ∀ before, before <+: rest → base < (performAll (action.perform s) before).depth :=
      fun before hbefore => h (action :: before) ((List.prefix_cons_inj action).2 hbefore)
    calc found name (kept base (performAll (action.perform s) rest))
        = (escapes base name (action.perform s) rest).getLast?.or
            (found name (kept base (action.perform s))) := ih hrest
      _ = (escapes base name (action.perform s) rest).getLast?.or
            ((action.escape? base name s).or (found name (kept base s))) := by
          rw [found_kept_perform hbase]
      _ = (escapes base name s (action :: rest)).getLast?.or (found name (kept base s)) := by
          rw [escapes, List.getLast?_append, Option.or_assoc]
          cases action.escape? base name s <;> rfl

/-! ### Brackets -/

theorem depth_performAll_push (h : Balanced actions) (hbefore : before <+: actions) :
    ((performAll s.push before).depth : Int) = s.depth + 1 + nesting before := by
  rw [depth_performAll, depth_push, Int.natCast_add, Int.natCast_one]
  intro first hfirst
  have := h.never_below first (hfirst.trans hbefore)
  omega

theorem depth_pop_performAll (h : Balanced actions) : (performAll s.push actions).pop.depth = s.depth := by
  have hdepth := @depth_performAll_push s actions actions h List.prefix_rfl
  rw [h.closed] at hdepth
  rw [depth_pop]
  omega

/-- Balanced actions never reach below the scope in which they start. -/
theorem lt_depth_performAll (h : Balanced actions) (hbefore : before <+: actions) :
    s.depth < (performAll s.push before).depth := by
  have hdepth := @depth_performAll_push s actions before h hbefore
  have := h.never_below before hbefore
  omega

theorem get?_pop_performAll (h : Balanced actions) (name : String) :
    (performAll s.push actions).pop.get? name =
      (escapes s.depth name s.push actions).getLast?.or (s.get? name) := by
  set t := performAll s.push actions
  have hlt : s.depth < t.depth := lt_depth_performAll h List.prefix_rfl
  have hdepth : t.depth - 1 = s.depth := by
    rw [← depth_pop]
    exact depth_pop_performAll h
  have hkept : kept s.depth t = t.pop.toList := by
    rw [toList_pop (by omega), kept_of_lt hlt, hdepth, Nat.sub_self, List.drop_zero]
  have hpush : kept s.depth s.push = s.toList := by rw [kept_push (Nat.le_refl _), kept, Nat.sub_self, List.drop_zero]
  have hrun : found name (kept s.depth t) =
      (escapes s.depth name s.push actions).getLast?.or (found name (kept s.depth s.push)) :=
    found_kept_performAll (fun before hbefore => lt_depth_performAll h hbefore) name
  rwa [hkept, hpush] at hrun

theorem performAll_bracket (s : Scopes) (body : List Action) :
    performAll s (.push :: (body ++ [.pop])) = (performAll s.push body).pop := by
  simp [performAll, Action.perform]

theorem escapes_append (base : Nat) (name : String) (s : Scopes) (first rest : List Action) :
    escapes base name s (first ++ rest) =
      escapes base name s first ++ escapes base name (performAll s first) rest := by
  induction first generalizing s with
  | nil => rfl
  | cons action first ih => simp [escapes, ih, performAll]

theorem escapes_bracket (base : Nat) (name : String) (s : Scopes) (body : List Action) :
    escapes base name s (.push :: (body ++ [.pop])) = escapes base name s.push body := by
  simp [escapes, escapes_append, Action.escape?, Action.perform]

/-- Whatever was done before, a bracket gives back the depth, and every name the value that it had or else
the last one that an assignment gave it in a scope from before the bracket. An assignment succeeds just if
the name is bound and otherwise changes nothing, and the global scope cannot be left. -/
theorem bracket_restores (s : Scopes) (actions : List Action) (h : Bracket actions) :
    (performAll s actions).depth = s.depth ∧
      (∀ name, (performAll s actions).get? name =
        (escapes s.depth name s actions).getLast?.or (s.get? name)) ∧
      ∀ t : Scopes,
        (∀ name v, ((t.assign? name v).isSome ↔ (t.get? name).isSome) ∧
          (t.assign? name v = none → Action.perform t (.assign name v) = t)) ∧
        (t.depth = 0 → t.pop = t) := by
  obtain ⟨body, hbody, rfl⟩ := h
  rw [performAll_bracket]
  refine ⟨depth_pop_performAll hbody, fun name => ?_, fun t => ⟨fun name v => ⟨?_, fun hnone => ?_⟩, ?_⟩⟩
  · rw [escapes_bracket, get?_pop_performAll hbody]
  · rw [assign?_isSome]
  · rw [Action.perform, hnone, Option.getD_none]
  · intro hdepth
    have hglobal : t.enclosing = [] := List.length_eq_zero_iff.1 hdepth
    rw [pop, hglobal]

/-- A name of the bracket hides the one below, and an assignment two levels further in finds the other. -/
theorem bracket_restores_hidden :
    let s := performAll {} [.define "x" (.bool true), .define "y" (.bool true)]
    let body : List Action := [.define "x" .nil, .push, .assign "x" (.bool false), .assign "y" (.bool false),
      .pop, .assign "x" .nil]
    let after := performAll s (.push :: (body ++ [.pop]))
    Bracket (.push :: (body ++ [.pop])) ∧ after.depth = 0 ∧ after.get? "x" = some (.bool true) ∧
      after.get? "y" = some (.bool false) := by
  intro s body after
  have hprefixes : ∀ before ∈ body.inits, 0 ≤ nesting before := by decide
  have hbody : Balanced body :=
    ⟨fun before hbefore => hprefixes before ((List.mem_inits before body).2 hbefore), by decide⟩
  have hbracket : Bracket (.push :: (body ++ [.pop])) := ⟨body, hbody, rfl⟩
  obtain ⟨hdepth, hget, -⟩ := bracket_restores s _ hbracket
  exact ⟨hbracket, hdepth, (hget "x").trans rfl, (hget "y").trans rfl⟩

end BlockScript.Scopes
