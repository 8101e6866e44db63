import BlockScript.Proofs.RejectedUnits

/-!
# Runs without reports

A unit can be run on a machine alone, which hands its failure back and reports nothing. Over any number of
units, failed ones included, this leaves the same bindings and the same output as a session that shows no
expressions, and what the session reports of a unit is the text of that failure.
-/
namespace BlockScript

/-- Texts that are written one on a line are written as the display of all of them. -/
theorem Sink.lines_eq_intercalate {texts : List String} (h : texts ≠ []) :
    lines texts = ("\n".intercalate texts ++ "\n").toUTF8 := by
  induction texts with
  | nil => exact absurd rfl h
  | cons text texts ih =>
    by_cases hrest : texts = []
    · rw [hrest, lines_singleton, String.intercalate_singleton]
    · rw [lines, ih hrest, String.intercalate_cons_of_ne_nil hrest, String.append_assoc]
      exact String.toByteArray_append.symm

/-- What is rejected has an error. -/
theorem errors_ne_nil {unit : String} {errors : List SyntaxError} (h : readProgram unit = .error errors) :
    errors ≠ [] := by
  rw [readProgram, Reading.program] at h
  split at h
  · cases h
  · next hne =>
    obtain rfl := Except.error.inj h
    simpa using hne

/-- What a session would have to say of a result. -/
def Failure.reports : Except Failure Unit → List String
  | .ok () => []
  | .error (.rejected errors) => errors.map SyntaxError.text
  | .error (.stopped error) => [error.text]

/-- The status that a session would give to a result. -/
def RunStatus.ofResult : Except Failure Unit → RunStatus
  | .ok () => {}
  | .error (.rejected _) => { hadSyntaxError := true }
  | .error (.stopped _) => { hadRuntimeError := true }

namespace RunStatus

theorem hadSyntaxError_ofResult_iff (result : Except Failure Unit) :
    (ofResult result).hadSyntaxError = true ↔ ∃ errors, result = .error (.rejected errors) := by
  rcases result with (errors | error) | ⟨⟩ <;> simp [ofResult]

theorem hadRuntimeError_ofResult_iff (result : Except Failure Unit) :
    (ofResult result).hadRuntimeError = true ↔ ∃ error, result = .error (.stopped error) := by
  rcases result with (errors | error) | ⟨⟩ <;> simp [ofResult]

theorem ofResult_eq_default_iff (result : Except Failure Unit) :
    ofResult result = {} ↔ result = .ok () := by
  rcases result with (errors | error) | ⟨⟩ <;> simp [ofResult]

end RunStatus

namespace Machine

/-- The machine after units that were run one by one, whether they failed or not. -/
def after (m : Machine) (units : List String) : Machine := units.foldl (fun m unit => (m.run unit).2) m

section Run
variable {m : Machine} {unit : String}

theorem run_of_error {errors : List SyntaxError} (h : readProgram unit = .error errors) :
    m.run unit = (.error (.rejected errors), (m.read unit).2) := by
  rw [run, Session.read_eq, h]

/-- A unit that is accepted runs as its program does. -/
theorem run_of_ok {program : List Stmt} (h : readProgram unit = .ok program) :
    let ending := Ending.ofProgram program m
    (m.run unit).1 = (ending.error.elim (.ok ()) fun error => .error (.stopped error)) ∧
      (m.run unit).2.scopes = ending.scopes ∧ (m.run unit).2.output = ending.output := by
  intro ending
  have hm : m.Related Eq (m.recordAll (Reading.ofSource unit).events) := ⟨rfl, rfl⟩
  have hending : ending = Ending.ofProgram program (m.recordAll (Reading.ofSource unit).events) :=
    (Ending.ofProgram_eq program hm).symm
  rw [hending, run, Session.read_eq, h, Ending.ofProgram]
  dsimp only
  rw [BlockScript.execute]
  cases Stmt.execAll program (m.recordAll (Reading.ofSource unit).events) with
  | ok v m' => exact ⟨rfl, rfl, rfl⟩
  | error e m' => exact ⟨rfl, rfl, rfl⟩

end Run
end Machine

namespace Session

section Run
variable {s : Session} {m : Machine}

/-- The session and the machine alone do the same with a unit. -/
theorem run_eq_machine_run (h : s.machine.Related Eq m) (unit : String) :
    (s.run unit).1 = .ofResult (m.run unit).1 ∧
      (s.run unit).2.machine.Related Eq (m.run unit).2 := by
  cases hread : readProgram unit with
  | error errors =>
    obtain ⟨hending, hstatus⟩ := ending_run_of_error (s := s) hread
    rw [hstatus, Machine.run_of_error hread]
    exact ⟨rfl, (congrArg Ending.scopes hending).trans h.scopes,
      (congrArg Ending.output hending).trans h.output⟩
  | ok program =>
    obtain ⟨hending, hstatus⟩ := ending_run (s := s) hread
    obtain ⟨hresult, hscopes, houtput⟩ := Machine.run_of_ok (m := m) hread
    rw [← Ending.ofProgram_eq program h] at hending hstatus
    rw [hstatus, hresult]
    refine ⟨?_, (congrArg Ending.scopes hending).trans hscopes.symm,
      (congrArg Ending.output hending).trans houtput.symm⟩
    cases (Ending.ofProgram program m).error <;> rfl

theorem reports_eq_failure_reports (h : s.machine.Related Eq m) (hdump : s.dump = none) (unit : String) :
    s.reports unit = Failure.reports (m.run unit).1 := by
  rw [reports]
  cases hread : readProgram unit with
  | error errors =>
    rw [Machine.run_of_error hread]
    rfl
  | ok program =>
    rw [runtimeError?_eq hread, (Machine.run_of_ok hread).1, ← Ending.ofProgram_eq program h, hdump]
    cases (Ending.ofProgram program m).error <;> rfl

theorem related_after_machine (h : s.machine.Related Eq m) (units : List String) :
    (s.after units).machine.Related Eq (m.after units) := by
  induction units generalizing s m with
  | nil => exact h
  | cons unit units ih => exact ih (run_eq_machine_run h unit).2

theorem dump_after (s : Session) (units : List String) : (s.after units).dump = s.dump :=
  (hasReported_after s units).dump

theorem unlimited_after (hs : s.errors.capacity = .unlimited) (units : List String) :
    (s.after units).errors.capacity = .unlimited := by
  rw [(hasReported_after s units).errors, Sink.writeLines_fst, Sink.write_of_unlimited hs]
  exact hs

end Run

/-- What is reported of a failure is its display. -/
theorem lines_failure_reports (m : Machine) (unit : String) :
    Sink.lines (Failure.reports (m.run unit).1) =
      match (m.run unit).1 with
      | .ok () => .empty
      | .error failure => (failure.text ++ "\n").toUTF8 := by
  cases hread : readProgram unit with
  | error errors =>
    have hne : errors.map SyntaxError.text ≠ [] := by
      simpa using errors_ne_nil hread
    rw [Machine.run_of_error hread]
    exact Sink.lines_eq_intercalate hne
  | ok program =>
    rw [(Machine.run_of_ok hread).1]
    cases (Ending.ofProgram program m).error with
    | none => rfl
    | some error => exact Sink.lines_singleton error.text

/-- After any units, the next one does the same in a session that shows no expressions and on a machine
alone: it leaves the same bindings and writes the same output. The status tells which failure the machine
hands back, if any, and the display of this failure is the one line that is reported. -/
theorem run_reports_failure (m : Machine) (units : List String) (unit : String) :
    let s := ({ machine := m } : Session).after units
    let alone := m.after units
    let result := (alone.run unit).1
    let answer := s.answer unit
    (s.run unit).2.machine.scopes = (alone.run unit).2.scopes ∧
      (s.run unit).2.machine.output = (alone.run unit).2.output ∧
      answer.output = (alone.run unit).2.output.contentSince alone.output ∧
      (answer.status.hadSyntaxError = true ↔ ∃ errors, result = .error (.rejected errors)) ∧
      (answer.status.hadRuntimeError = true ↔ ∃ error, result = .error (.stopped error)) ∧
      (answer.status = {} ↔ result = .ok ()) ∧
      answer.errors =
        match result with
        | .ok () => .empty
        | .error failure => (failure.text ++ "\n").toUTF8 := by
  intro s alone result answer
  have hrelated : s.machine.Related Eq alone := related_after_machine ⟨rfl, rfl⟩ units
  obtain ⟨hstatus, hrun⟩ := run_eq_machine_run hrelated unit
  have hanswer : answer.status = .ofResult result := hstatus
  have houtput : answer.output = (alone.run unit).2.output.contentSince alone.output := by
    rw [← hrun.output, ← hrelated.output]
    rfl
  have herrors : answer.errors = Sink.lines (Failure.reports result) := by
    rw [← reports_eq_failure_reports hrelated (dump_after _ units) unit]
    exact errors_answer (unlimited_after rfl units) unit
  rw [hanswer, herrors]
  exact ⟨hrun.scopes, hrun.output, houtput, RunStatus.hadSyntaxError_ofResult_iff result,
    RunStatus.hadRuntimeError_ofResult_iff result, RunStatus.ofResult_eq_default_iff result,
    lines_failure_reports alone unit⟩

end Session
end BlockScript
