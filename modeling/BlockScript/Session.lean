import BlockScript.Execution
import BlockScript.Rendering

/-! # Sessions

A session runs one unit of input after another on the same machine, so the global bindings last. It reports
what goes wrong on a second sink; a report that does not fit there is recorded and changes nothing else. -/
namespace BlockScript

/-- How parsed expressions are shown. -/
inductive DumpForm where
  | parenthesized
  | reversePolish
deriving DecidableEq, Repr

def DumpForm.render : DumpForm → Expr → String
  | .parenthesized, e => e.parenthesized
  | .reversePolish, e => e.reversePolish

structure Session where
  machine : Machine := {}
  errors : Sink := {}
  dump : Option DumpForm := none

namespace Session

def record (s : Session) (event : Event) : Session :=
  { s with machine := s.machine.record event }

def report (s : Session) (text : String) : Session :=
  match s.errors.writeLine text with
  | (errors, none) => { s with errors }
  | (errors, some cause) => { s with errors }.record (.reportLost cause)

def reportAll (s : Session) (texts : List String) : Session :=
  texts.foldl report s

/-- What is shown of a program before it runs. -/
def dumpTexts (dump : Option DumpForm) (program : List Stmt) : List String :=
  match dump with
  | none => []
  | some form => (Stmt.expressionsOfAll program).map form.render

def execute (s : Session) (program : List Stmt) : RunStatus × Session :=
  match BlockScript.execute program s.machine with
  | .ok () machine => ({}, { s with machine })
  | .error error machine => ({ hadRuntimeError := true }, { s with machine }.report error.text)

/-- Reads a unit of input and runs it, if nothing is wrong with its text. -/
def run (s : Session) (source : String) : RunStatus × Session :=
  let (program, machine) := s.machine.read source
  let s := { s with machine }
  let (status, s) : RunStatus × Session :=
    match program with
    | .error errors => ({ hadSyntaxError := true }, s.reportAll (errors.map SyntaxError.text))
    | .ok program => (s.reportAll (dumpTexts s.dump program)).execute program
  (status, s.record (.finishedUnit status))

end Session
end BlockScript
