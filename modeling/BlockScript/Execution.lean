import BlockScript.Stmt
import BlockScript.Sink
import BlockScript.Event
import BlockScript.Evaluation
import BlockScript.Reading

/-! # Execution of statements

Statements run on a machine: the scopes, the output, and the log. The first fault ends the run; what was
done before it stays done, except that the scopes of all blocks entered are left. -/
namespace BlockScript

structure Machine where
  scopes : Scopes := {}
  output : Sink := {}
  log : Array Event := #[]

namespace Machine

def record (m : Machine) (event : Event) : Machine := { m with log := m.log.push event }

def recordAll (m : Machine) (events : List Event) : Machine := { m with log := m.log ++ events }

def enter (m : Machine) : Machine :=
  let scopes := m.scopes.push
  { m with scopes }.record (.enteredScope scopes.depth)

/-- Leaves the innermost scope; there is nothing to leave, or to record, in the global one. -/
def leave (m : Machine) : Machine :=
  if m.scopes.depth = 0 then m
  else
    let scopes := m.scopes.pop
    { m with scopes }.record (.leftScope scopes.depth m.scopes.innermost.size)

def define (m : Machine) (name : String) (value : Value) : Machine :=
  { m with scopes := m.scopes.define name value }

@[simp] theorem scopes_record (m : Machine) (event : Event) : (m.record event).scopes = m.scopes := rfl

@[simp] theorem output_record (m : Machine) (event : Event) : (m.record event).output = m.output := rfl

@[simp] theorem scopes_enter (m : Machine) : m.enter.scopes = m.scopes.push := rfl

@[simp] theorem output_enter (m : Machine) : m.enter.output = m.output := rfl

theorem scopes_leave (m : Machine) : m.leave.scopes = m.scopes.pop := by
  unfold leave
  split
  · next h =>
    have he : m.scopes.enclosing = [] := List.length_eq_zero_iff.1 h
    simp [Scopes.pop, he]
  · rfl

@[simp] theorem output_leave (m : Machine) : m.leave.output = m.output := by
  unfold leave
  split <;> rfl

@[simp] theorem scopes_leave_enter (m : Machine) : m.enter.leave.scopes = m.scopes := by
  rw [scopes_leave, scopes_enter, Scopes.pop_push]

end Machine

abbrev Exec := EStateM RuntimeError Machine

namespace Exec

def evaluate (e : Expr) : Exec Value := fun m =>
  match e.eval m.scopes with
  | .ok v scopes => .ok v { m with scopes }
  | .error error scopes => .error error { m with scopes }

def printLine (line : UInt32) (v : Value) : Exec Unit := fun m =>
  match m.output.writeLine v.text with
  | (output, none) => .ok () { m with output }
  | (output, some cause) => .error ⟨line, .output cause⟩ { m with output }

/-- Runs the body in a scope of its own, which is left whether the body fails or not. -/
def inNewScope (body : Exec Unit) : Exec Unit := fun m =>
  match body m.enter with
  | .ok () m => .ok () m.leave
  | .error error m => .error error m.leave

end Exec

namespace Stmt
open Exec

mutual

def exec : Stmt → Exec Unit
  | .block body => inNewScope (execAll body)
  | .expr e => do
    let _ ← evaluate e
  | .print e line => do
    let v ← evaluate e
    printLine line v
  | .declare name none => modify (·.define name.lexeme .nil)
  | .declare name (some e) => do
    let v ← evaluate e
    modify (·.define name.lexeme v)

def execAll : List Stmt → Exec Unit
  | [] => pure ()
  | s :: rest => do
    s.exec
    execAll rest

end

end Stmt

/-- Runs a program, and records the fault that ends it. -/
def execute (program : List Stmt) : Exec Unit := fun m =>
  match Stmt.execAll program m with
  | .ok () m => .ok () m
  | .error error m => .error error (m.record (.runtimeError error))

/-- Why a source text was not run to its end. -/
inductive Failure where
  | rejected (errors : List SyntaxError)
  | stopped (error : RuntimeError)

def Failure.text : Failure → String
  | .rejected errors => SyntaxError.texts errors
  | .stopped error => error.text

namespace Machine

/-- Reads a source text, and records how that went. -/
def read (m : Machine) (source : String) : Except (List SyntaxError) (List Stmt) × Machine :=
  let reading := Reading.ofSource source
  (reading.program, m.recordAll reading.events)

/-- Reads and runs a source text. -/
def run (m : Machine) (source : String) : Except Failure Unit × Machine :=
  match m.read source with
  | (.error errors, m) => (.error (.rejected errors), m)
  | (.ok program, m) =>
    match execute program m with
    | .ok () m => (.ok (), m)
    | .error error m => (.error (.stopped error), m)

end Machine

end BlockScript
