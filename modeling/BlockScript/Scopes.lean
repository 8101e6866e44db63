import BlockScript.Value
import Std.Data.TreeMap.Lemmas

/-! # Scopes

The bindings of a program: one scope for each open block, the innermost first, and the global scope at the
bottom, which is never left. A name means its binding in the innermost scope that has one. -/
namespace BlockScript

abbrev Scope := Std.TreeMap String Value

structure Scopes where
  innermost : Scope := ∅
  enclosing : List Scope := []

namespace Scopes

/-- The number of scopes above the global one. -/
def depth (s : Scopes) : Nat := s.enclosing.length

def toList (s : Scopes) : List Scope := s.innermost :: s.enclosing

def push (s : Scopes) : Scopes := ⟨∅, s.toList⟩

/-- Leaves the innermost scope, unless it is the global one. -/
def pop (s : Scopes) : Scopes :=
  match s.enclosing with
  | [] => s
  | scope :: enclosing => ⟨scope, enclosing⟩

def get? (s : Scopes) (name : String) : Option Value :=
  s.toList.findSome? fun scope => scope[name]?

/-- Binds the name in the innermost scope. -/
def define (s : Scopes) (name : String) (value : Value) : Scopes :=
  { s with innermost := s.innermost.insert name value }

/-- Rebinds the name in the first scope of the list that binds it. -/
def rebind? (name : String) (value : Value) : List Scope → Option (List Scope)
  | [] => none
  | scope :: rest =>
    if scope.contains name then some (scope.insert name value :: rest)
    else (rebind? name value rest).map (scope :: ·)

/-- Gives a bound name a new value where it is bound. -/
def assign? (s : Scopes) (name : String) (value : Value) : Option Scopes :=
  if s.innermost.contains name then some (s.define name value)
  else (rebind? name value s.enclosing).map fun enclosing => { s with enclosing }

@[simp] theorem pop_push (s : Scopes) : s.push.pop = s := rfl

@[simp] theorem depth_push (s : Scopes) : s.push.depth = s.depth + 1 := rfl

@[simp] theorem depth_pop (s : Scopes) : s.pop.depth = s.depth - 1 := by
  unfold pop depth
  split <;> simp_all

@[simp] theorem depth_define (s : Scopes) (name : String) (value : Value) :
    (s.define name value).depth = s.depth := rfl

@[simp] theorem get?_push (s : Scopes) (name : String) : s.push.get? name = s.get? name := by
  simp [get?, push, toList]

theorem get?_define (s : Scopes) (name other : String) (value : Value) :
    (s.define name value).get? other = if name = other then some value else s.get? other := by
  by_cases h : name = other
  · simp [get?, define, toList, h]
  · simp [get?, define, toList, List.findSome?_cons, Std.TreeMap.getElem?_insert, h]

theorem rebind?_isSome (name : String) (value : Value) (scopes : List Scope) :
    (rebind? name value scopes).isSome = (scopes.findSome? fun scope => scope[name]?).isSome := by
  induction scopes with
  | nil => rfl
  | cons scope rest ih =>
    rw [rebind?, List.findSome?_cons]
    rw [Std.TreeMap.contains_eq_isSome_getElem?]
    cases scope[name]? with
    | none => simpa using ih
    | some bound => rfl

/-- An assignment succeeds just if the name is bound. -/
theorem assign?_isSome (s : Scopes) (name : String) (value : Value) :
    (s.assign? name value).isSome = (s.get? name).isSome := by
  have h := rebind?_isSome name value s.toList
  rw [get?, ← h, assign?, toList, rebind?]
  split <;> simp

theorem length_rebind? {name : String} {value : Value} {scopes scopes' : List Scope}
    (h : rebind? name value scopes = some scopes') : scopes'.length = scopes.length := by
  induction scopes generalizing scopes' with
  | nil => simp [rebind?] at h
  | cons scope rest ih =>
    rw [rebind?] at h
    split at h
    · cases h
      rfl
    · obtain ⟨rest', hrest, rfl⟩ := Option.map_eq_some_iff.1 h
      simp [ih hrest]

/-- An assignment rebinds the name in the first of all scopes that binds it. -/
theorem map_toList_assign? (s : Scopes) (name : String) (value : Value) :
    (s.assign? name value).map toList = rebind? name value s.toList := by
  rw [assign?, toList, rebind?]
  split
  · rfl
  · rw [Option.map_map]
    rfl

theorem depth_assign? {s s' : Scopes} {name : String} {value : Value}
    (h : s.assign? name value = some s') : s'.depth = s.depth := by
  have hrebind : rebind? name value s.toList = some s'.toList := by
    rw [← map_toList_assign?, h, Option.map_some]
  have hlength := length_rebind? hrebind
  simpa [toList, depth] using hlength

end Scopes
end BlockScript
