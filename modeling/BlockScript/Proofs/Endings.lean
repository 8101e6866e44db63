import BlockScript.Session
import BlockScript.Proofs.Simulation

/-!
# How runs end

The ending of a run is all of it that the program itself decides: the fault that stopped it, if one did,
the bindings, and the output. Neither the log nor what is reported makes a difference to it.
-/
namespace BlockScript

structure Ending where
  error : Option RuntimeError
  scopes : Scopes
  output : Sink

namespace Ending

def ofResult : EStateM.Result RuntimeError Machine Unit → Ending
  | .ok () m => ⟨none, m.scopes, m.output⟩
  | .error e m => ⟨some e, m.scopes, m.output⟩

/-- The ending of a program that is run on a machine. -/
def ofProgram (program : List Stmt) (m : Machine) : Ending := ofResult (Stmt.execAll program m)

/-- The ending with the line of its error changed. -/
def relabel (f : Relabeling) (e : Ending) : Ending := { e with error := e.error.map (·.relabel f) }

end Ending

/-! ### Logs -/

/-- The relabeling that changes nothing. -/
def Relabeling.refl : Relabeling := ⟨id, id⟩

theorem Expr.relabel_refl (e : Expr) : e.relabel .refl = e := by
  induction e with
  | literal v | var name => rfl
  | grouping e ih => rw [relabel, ih]
  | unary op line e ih => exact congrArg (unary op line) ih
  | binary l op line r ihl ihr =>
    rw [relabel, ihl, ihr]
    rfl
  | assign name e ih => exact congrArg (assign name) ih

mutual

theorem Stmt.relabel_refl : (s : Stmt) → s.relabel .refl = s
  | .block body => congrArg Stmt.block (Stmt.relabelAll_refl body)
  | .expr e => congrArg Stmt.expr e.relabel_refl
  | .print e line => congrArg (Stmt.print · line) e.relabel_refl
  | .declare _ none => rfl
  | .declare name (some e) => congrArg (fun e => Stmt.declare name (some e)) e.relabel_refl

theorem Stmt.relabelAll_refl : (program : List Stmt) → relabelAll .refl program = program
  | [] => rfl
  | s :: rest => by rw [Stmt.relabelAll, s.relabel_refl, Stmt.relabelAll_refl rest]

end

theorem simulates_refl : Simulates .refl (fun _ => True) (fun _ s t => s = t) where
  line _ := rfl
  get? hR _ := by rw [hR]; rfl
  unbound _ _ _ := rfl
  define v hR _ := by rw [hR]; rfl
  assign hR _ hs := ⟨_, by rw [← hR]; exact hs, rfl⟩
  push hR := by rw [hR]
  pop hR := by rw [hR]

/-- A statement that fails is the last one that is run. -/
theorem Stmt.execAll_cons (s : Stmt) (rest : List Stmt) (m : Machine) :
    Stmt.execAll (s :: rest) m =
      match s.exec m with
      | .ok () m => Stmt.execAll rest m
      | .error error m => .error error m := by
  rw [Stmt.execAll]
  change EStateM.bind s.exec (fun _ => Stmt.execAll rest) m = _
  rw [EStateM.bind]
  cases s.exec m <;> rfl

namespace Ending
variable {f : Relabeling} {m m' : Machine}

theorem ofResult_of_follows {r r' : EStateM.Result RuntimeError Machine Unit}
    (h : Follows f (Machine.Related Eq) r r') : ofResult r' = (ofResult r).relabel f := by
  cases h with
  | ok v hm => rw [ofResult, ofResult, relabel, hm.scopes, hm.output, Option.map_none]
  | error e hm => rw [ofResult, ofResult, relabel, hm.scopes, hm.output, Option.map_some]

/-- The ending does not depend on the log. -/
theorem ofProgram_eq (program : List Stmt) (hm : m.Related Eq m') :
    ofProgram program m' = ofProgram program m := by
  have h := ofResult_of_follows (simulates_refl.execAll (n := 0) program (fun _ _ => trivial) hm)
  rw [Stmt.relabelAll_refl] at h
  rw [ofProgram, h, ofProgram, relabel]
  have hid : (fun e : RuntimeError => e.relabel .refl) = id := rfl
  rw [hid, Option.map_id, id]

theorem execAll_append (program program' : List Stmt) (m : Machine) :
    Stmt.execAll (program ++ program') m =
      match Stmt.execAll program m with
      | .ok () m' => Stmt.execAll program' m'
      | .error e m' => .error e m' := by
  induction program generalizing m with
  | nil =>
    rw [List.nil_append, Stmt.execAll.eq_1]
    rfl
  | cons s rest ih =>
    rw [List.cons_append, Stmt.execAll_cons, Stmt.execAll_cons]
    cases s.exec m with
    | ok v m' => exact ih m'
    | error e m' => rfl

/-- What follows a program runs if that was not stopped, from where it left off. -/
theorem ofProgram_append (program program' : List Stmt) (m : Machine) :
    ofProgram (program ++ program') m =
      match ofProgram program m with
      | ⟨some e, scopes, output⟩ => ⟨some e, scopes, output⟩
      | ⟨none, scopes, output⟩ => ofProgram program' { scopes, output } := by
  rw [ofProgram, ofProgram, execAll_append]
  cases Stmt.execAll program m with
  | ok v m' =>
    have hm : Machine.Related Eq m' { scopes := m'.scopes, output := m'.output } := ⟨rfl, rfl⟩
    exact (ofProgram_eq program' hm).symm
  | error e m' => rfl

theorem ofProgram_cons (s : Stmt) (program : List Stmt) (m : Machine) :
    ofProgram (s :: program) m =
      match ofProgram [s] m with
      | ⟨some e, scopes, output⟩ => ⟨some e, scopes, output⟩
      | ⟨none, scopes, output⟩ => ofProgram program { scopes, output } :=
  ofProgram_append [s] program m

theorem ofProgram_singleton (s : Stmt) (m : Machine) : ofProgram [s] m = ofResult (s.exec m) := by
  rw [ofProgram, Stmt.execAll_cons]
  cases s.exec m with
  | ok v m' => rfl
  | error e m' => rfl

/-- The record of its fault makes no difference to how a program ends. -/
theorem ofResult_execute (program : List Stmt) (m : Machine) :
    ofResult (execute program m) = ofProgram program m := by
  rw [execute, ofProgram]
  cases Stmt.execAll program m with
  | ok v m' => rfl
  | error e m' => rfl

/-- The ending when the innermost scope is left. -/
def leave (e : Ending) : Ending := { e with scopes := e.scopes.pop }

theorem ofResult_inNewScope (body : Exec Unit) (m : Machine) :
    ofResult (Exec.inNewScope body m) = (ofResult (body m.enter)).leave := by
  rw [Exec.inNewScope]
  cases body m.enter with
  | ok v m' =>
    change Ending.mk none m'.leave.scopes m'.leave.output = _
    rw [Machine.scopes_leave, Machine.output_leave]
    rfl
  | error e m' =>
    change Ending.mk (some e) m'.leave.scopes m'.leave.output = _
    rw [Machine.scopes_leave, Machine.output_leave]
    rfl

end Ending

/-! ### Sessions -/

namespace Session

/-- The fault that stops a unit, if one does. -/
def runtimeError? (s : Session) (unit : String) : Option RuntimeError :=
  match (s.machine.run unit).1 with
  | .error (.stopped error) => some error
  | _ => none

/-- The ending of a unit that is run in a session. -/
def ending (s : Session) (unit : String) : Ending :=
  ⟨s.runtimeError? unit, (s.run unit).2.machine.scopes, (s.run unit).2.machine.output⟩

theorem related_report (s : Session) (text : String) : s.machine.Related Eq (s.report text).machine := by
  rw [report]
  split
  · exact ⟨rfl, rfl⟩
  · exact ⟨rfl, rfl⟩

theorem related_reportAll (s : Session) (texts : List String) :
    s.machine.Related Eq (s.reportAll texts).machine := by
  induction texts generalizing s with
  | nil => exact ⟨rfl, rfl⟩
  | cons text texts ih =>
    have hfirst := s.related_report text
    have hrest := ih (s.report text)
    exact ⟨hfirst.scopes.trans hrest.scopes, hfirst.output.trans hrest.output⟩

section Run
variable {s : Session} {unit : String} {program : List Stmt}

theorem read_eq (m : Machine) (unit : String) :
    m.read unit = (readProgram unit, m.recordAll (Reading.ofSource unit).events) := rfl

theorem runtimeError?_eq (h : readProgram unit = .ok program) :
    s.runtimeError? unit = (Ending.ofProgram program s.machine).error := by
  have hm : s.machine.Related Eq (s.machine.recordAll (Reading.ofSource unit).events) := ⟨rfl, rfl⟩
  rw [← Ending.ofProgram_eq program hm]
  rw [runtimeError?, Machine.run, read_eq, h, Ending.ofProgram]
  dsimp only
  rw [BlockScript.execute]
  cases Stmt.execAll program (s.machine.recordAll (Reading.ofSource unit).events) with
  | ok v m => rfl
  | error e m => rfl

theorem execute_eq (s : Session) (program : List Stmt) :
    (s.execute program).1 = { hadRuntimeError := (Ending.ofProgram program s.machine).error.isSome } ∧
      (s.execute program).2.machine.scopes = (Ending.ofProgram program s.machine).scopes ∧
      (s.execute program).2.machine.output = (Ending.ofProgram program s.machine).output := by
  rw [execute, BlockScript.execute, Ending.ofProgram]
  cases Stmt.execAll program s.machine with
  | ok v m => exact ⟨rfl, rfl, rfl⟩
  | error e m =>
    have hr := related_report { s with machine := m.record (.runtimeError e) } e.text
    exact ⟨rfl, hr.scopes.symm, hr.output.symm⟩

theorem run_of_error {errors : List SyntaxError} (h : readProgram unit = .error errors) :
    s.run unit =
      ({ hadSyntaxError := true },
        ({ s with machine := (s.machine.read unit).2 }.reportAll (errors.map SyntaxError.text)).record
          (.finishedUnit { hadSyntaxError := true })) := by
  rw [run, read_eq, h]

theorem run_of_ok (h : readProgram unit = .ok program) :
    s.run unit =
      let reading := { s with machine := (s.machine.read unit).2 }
      let (status, s) := (reading.reportAll (dumpTexts s.dump program)).execute program
      (status, s.record (.finishedUnit status)) := by
  rw [run, read_eq, h]

/-- Reading and reporting leave the bindings and the output alone. -/
theorem related_read_reportAll (s : Session) (unit : String) (texts : List String) :
    s.machine.Related Eq ({ s with machine := (s.machine.read unit).2 }.reportAll texts).machine := by
  have hreported := related_reportAll { s with machine := (s.machine.read unit).2 } texts
  exact ⟨hreported.scopes, hreported.output⟩

/-- A unit runs as its program does, whatever is reported. -/
theorem ending_run (h : readProgram unit = .ok program) :
    s.ending unit = .ofProgram program s.machine ∧
      (s.run unit).1 = { hadRuntimeError := (Ending.ofProgram program s.machine).error.isSome } := by
  let shown := { s with machine := (s.machine.read unit).2 }.reportAll (dumpTexts s.dump program)
  obtain ⟨hstatus, hscopes, houtput⟩ := execute_eq shown program
  rw [Ending.ofProgram_eq program (related_read_reportAll s unit _)] at hstatus hscopes houtput
  rw [ending, runtimeError?_eq h, run_of_ok h]
  refine ⟨?_, hstatus⟩
  change Ending.mk _ (shown.execute program).2.machine.scopes (shown.execute program).2.machine.output = _
  rw [hscopes, houtput]

/-- A rejected unit does nothing to the bindings and the output. -/
theorem ending_run_of_error {errors : List SyntaxError} (h : readProgram unit = .error errors) :
    s.ending unit = ⟨none, s.machine.scopes, s.machine.output⟩ ∧
      (s.run unit).1 = { hadSyntaxError := true } := by
  have hnone : s.runtimeError? unit = none := by
    rw [runtimeError?, Machine.run, read_eq, h]
  have hreported := related_read_reportAll s unit (errors.map SyntaxError.text)
  rw [ending, hnone, run_of_error h, hreported.scopes, hreported.output]
  exact ⟨rfl, rfl⟩

end Run
end Session
end BlockScript
