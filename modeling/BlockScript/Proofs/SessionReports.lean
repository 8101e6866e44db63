import BlockScript.Proofs.BindingChanges
import BlockScript.Proofs.SinkLines

/-!
# Reports of a session

What a session reports is decided by its units, its scopes and its output sink. Nothing comes back: neither
the form in which expressions are shown nor the sink for the reports makes a difference to a run, and a
report that is lost leaves a warning and nothing else.
-/
namespace BlockScript

/-! ### Warnings -/

namespace Machine

/-- A relation of machine states that holds across every step of a run. -/
structure RunRelation (R : Machine → Machine → Prop) : Prop where
  refl : ∀ m, R m m
  trans : ∀ {m k n}, R m k → R k n → R m n
  rebind : ∀ m scopes, R m { m with scopes }
  write : ∀ m output, R m { m with output }
  enter : ∀ m, R m m.enter
  leave : ∀ m, R m m.leave

namespace RunRelation
variable {R : Machine → Machine → Prop}

theorem evaluate (h : RunRelation R) (e : Expr) : Confined R (Exec.evaluate e) := by
  intro m
  rw [Exec.evaluate]
  cases e.eval m.scopes with
  | ok v scopes => exact h.rebind m scopes
  | error error scopes => exact h.rebind m scopes

theorem printLine (h : RunRelation R) (line : UInt32) (v : Value) :
    Confined R (Exec.printLine line v) := by
  intro m
  rw [Exec.printLine]
  obtain ⟨output, cause⟩ := m.output.writeLine v.text
  cases cause with
  | none => exact h.write m output
  | some cause => exact h.write m output

theorem define (h : RunRelation R) (name : String) (v : Value) :
    Confined R (modify (·.define name v) : Exec Unit) :=
  fun m => h.rebind m _

theorem inNewScope (h : RunRelation R) {body : Exec Unit} (hbody : Confined R body) :
    Confined R (Exec.inNewScope body) := by
  intro m
  have hrun := h.trans (h.enter m) (hbody m.enter)
  rw [Exec.inNewScope]
  generalize body m.enter = r at hrun
  cases r with
  | ok v m' => exact h.trans hrun (h.leave m')
  | error error m' => exact h.trans hrun (h.leave m')

mutual

theorem exec (h : RunRelation R) : (s : Stmt) → Confined R s.exec
  | .block body => by
    rw [Stmt.exec]
    exact h.inNewScope (h.execAll body)
  | .expr e => by
    rw [Stmt.exec]
    exact (h.evaluate e).bind h.trans fun _ m => h.refl m
  | .print e line => by
    rw [Stmt.exec]
    exact (h.evaluate e).bind h.trans (h.printLine line)
  | .declare name none => by
    rw [Stmt.exec]
    exact h.define name.lexeme .nil
  | .declare name (some e) => by
    rw [Stmt.exec]
    exact (h.evaluate e).bind h.trans (h.define name.lexeme)

theorem execAll (h : RunRelation R) : (program : List Stmt) → Confined R (Stmt.execAll program)
  | [] => by
    rw [Stmt.execAll]
    exact fun m => h.refl m
  | s :: rest => by
    rw [Stmt.execAll]
    exact (h.exec s).bind h.trans fun _ => h.execAll rest

end

end RunRelation

/-- The warnings in the log. -/
def warnings (m : Machine) : List Event := m.log.toList.filter (·.level = .warn)

theorem warnings_record (m : Machine) (event : Event) :
    (m.record event).warnings = m.warnings ++ [event].filter (·.level = .warn) := by
  rw [warnings, record, Array.toList_push, List.filter_append]
  rfl

theorem warnings_recordAll (m : Machine) (events : List Event) :
    (m.recordAll events).warnings = m.warnings ++ events.filter (·.level = .warn) := by
  rw [warnings, recordAll, Array.toList_appendList, List.filter_append]
  rfl

theorem recordAll_append (m : Machine) (events events' : List Event) :
    m.recordAll (events ++ events') = (m.recordAll events).recordAll events' := by
  have hlog : m.log ++ (events ++ events') = m.log ++ events ++ events' := by
    apply Array.ext'
    simp only [Array.toList_appendList, List.append_assoc]
  rw [recordAll, hlog]
  rfl

theorem recordAll_nil (m : Machine) : m.recordAll [] = m := by
  rw [recordAll, Array.appendList_nil]

/-- Statements give no warnings. -/
theorem runRelation_warnings : RunRelation fun m m' => m'.warnings = m.warnings where
  refl _ := rfl
  trans h h' := h'.trans h
  rebind _ _ := rfl
  write _ _ := rfl
  enter m := by
    rw [enter, warnings_record]
    exact List.append_nil _
  leave m := by
    rw [leave]
    split
    · rfl
    · rw [warnings_record]
      exact List.append_nil _

end Machine

/-! ### Reports -/

namespace Session

/-- The texts that a unit reports. -/
def reports (s : Session) (unit : String) : List String :=
  match readProgram unit with
  | .error errors => errors.map SyntaxError.text
  | .ok program => dumpTexts s.dump program ++ (s.runtimeError? unit).toList.map RuntimeError.text

/-- The session after the units. -/
def after (s : Session) (units : List String) : Session := units.foldl (fun s unit => (s.run unit).2) s

/-- The texts that units report one after the other. -/
def reportsOfAll (s : Session) : List String → List String
  | [] => []
  | unit :: units => s.reports unit ++ (s.run unit).2.reportsOfAll units

theorem report_eq (s : Session) (text : String) :
    s.report text =
      { s with
        machine := s.machine.recordAll ((s.errors.writeLine text).2.toList.map .reportLost)
        errors := (s.errors.writeLine text).1 } := by
  rw [report]
  obtain ⟨errors, cause⟩ := s.errors.writeLine text
  cases cause with
  | none =>
    rw [Option.toList_none, List.map_nil, Machine.recordAll_nil]
  | some cause => rfl

theorem reportAll_eq (s : Session) (texts : List String) :
    s.reportAll texts =
      { s with
        machine := s.machine.recordAll ((s.errors.writeLines texts).2.map .reportLost)
        errors := (s.errors.writeLines texts).1 } := by
  induction texts generalizing s with
  | nil =>
    rw [Sink.writeLines, List.map_nil, Machine.recordAll_nil]
    rfl
  | cons text texts ih =>
    have hcons : s.reportAll (text :: texts) = (s.report text).reportAll texts := rfl
    rw [hcons, ih, report_eq, Sink.writeLines, List.map_append, Machine.recordAll_append]

/-- From one session to the other exactly the texts were reported, and each that was lost has a warning. -/
structure HasReported (s s' : Session) (texts : List String) : Prop where
  dump : s'.dump = s.dump
  errors : s'.errors = (s.errors.writeLines texts).1
  warnings : s'.machine.warnings = s.machine.warnings ++ (s.errors.writeLines texts).2.map .reportLost

namespace HasReported
variable {s s' s'' : Session} {texts texts' : List String}

theorem refl (s : Session) : HasReported s s [] := ⟨rfl, rfl, (List.append_nil _).symm⟩

theorem trans (h : HasReported s s' texts) (h' : HasReported s' s'' texts') :
    HasReported s s'' (texts ++ texts') where
  dump := h'.dump.trans h.dump
  errors := by rw [h'.errors, h.errors, Sink.writeLines_append]
  warnings := by
    rw [h'.warnings, h.warnings, h.errors, Sink.writeLines_append, List.map_append, List.append_assoc]

/-- What a machine does by itself is no report. -/
theorem of_machine (s : Session) {machine : Machine} (h : machine.warnings = s.machine.warnings) :
    HasReported s { s with machine } [] :=
  ⟨rfl, rfl, h.trans (List.append_nil _).symm⟩

theorem reportAll (s : Session) (texts : List String) : HasReported s (s.reportAll texts) texts := by
  rw [reportAll_eq]
  refine ⟨rfl, rfl, ?_⟩
  rw [Machine.warnings_recordAll]
  congr 1
  rw [List.filter_eq_self]
  intro event hevent
  obtain ⟨cause, -, rfl⟩ := List.mem_map.1 hevent
  rfl

theorem execute (s : Session) (program : List Stmt) :
    HasReported s (s.execute program).2
      ((Ending.ofProgram program s.machine).error.toList.map RuntimeError.text) := by
  have hwarnings := Machine.runRelation_warnings.execAll program s.machine
  rw [Session.execute, BlockScript.execute, Ending.ofProgram]
  generalize Stmt.execAll program s.machine = r at hwarnings
  cases r with
  | ok v machine => exact of_machine s hwarnings
  | error error machine =>
    have hrecord : (machine.record (.runtimeError error)).warnings = s.machine.warnings := by
      rw [Machine.warnings_record]
      exact (List.append_nil _).trans hwarnings
    exact (of_machine s hrecord).trans (reportAll _ [error.text])

end HasReported

/-! ### Units -/

theorem warnings_read (m : Machine) (unit : String) : (m.read unit).2.warnings = m.warnings := by
  rw [read_eq, Machine.warnings_recordAll]
  simp [Reading.events, Event.level]

section Run
variable {s : Session} {unit : String}

theorem hasReported_run (s : Session) (unit : String) : HasReported s (s.run unit).2 (s.reports unit) := by
  have hread := HasReported.of_machine s (warnings_read s.machine unit)
  have hfinish : ∀ (s : Session) (status : RunStatus),
      HasReported s (s.record (.finishedUnit status)) [] := by
    intro s status
    refine .of_machine s ?_
    rw [Machine.warnings_record]
    exact List.append_nil _
  cases h : readProgram unit with
  | error errors =>
    rw [run_of_error h, reports, h]
    have hreports := hread.trans (HasReported.reportAll _ (errors.map SyntaxError.text))
    have hrun := hreports.trans (hfinish _ { hadSyntaxError := true })
    rwa [List.nil_append, List.append_nil] at hrun
  | ok program =>
    let reading : Session := { s with machine := (s.machine.read unit).2 }
    let shown := reading.reportAll (dumpTexts s.dump program)
    have hexecute := HasReported.execute shown program
    rw [Ending.ofProgram_eq program (related_read_reportAll s unit _), ← runtimeError?_eq h] at hexecute
    have hreports := (HasReported.reportAll reading (dumpTexts s.dump program)).trans hexecute
    have hrun := (hread.trans hreports).trans (hfinish _ (shown.execute program).1)
    rw [run_of_ok h, reports, h]
    rwa [List.nil_append, List.append_nil] at hrun

theorem hasReported_after (s : Session) (units : List String) :
    HasReported s (s.after units) (s.reportsOfAll units) := by
  induction units generalizing s with
  | nil => exact .refl s
  | cons unit units ih => exact (hasReported_run s unit).trans (ih (s.run unit).2)

/-- How a unit ends depends on the scopes and the output sink only. -/
theorem run_congr {s s' : Session} (h : s.machine.Related Eq s'.machine) (unit : String) :
    (s.run unit).1 = (s'.run unit).1 ∧ s.ending unit = s'.ending unit := by
  cases hread : readProgram unit with
  | error errors =>
    obtain ⟨hending, hstatus⟩ := ending_run_of_error (s := s) hread
    obtain ⟨hending', hstatus'⟩ := ending_run_of_error (s := s') hread
    rw [hstatus, hstatus', hending, hending', h.scopes, h.output]
    exact ⟨rfl, rfl⟩
  | ok program =>
    obtain ⟨hending, hstatus⟩ := ending_run (s := s) hread
    obtain ⟨hending', hstatus'⟩ := ending_run (s := s') hread
    rw [hstatus, hstatus', hending, hending', Ending.ofProgram_eq program h]
    exact ⟨rfl, rfl⟩

theorem related_run {s s' : Session} (h : s.machine.Related Eq s'.machine) (unit : String) :
    (s.run unit).2.machine.Related Eq (s'.run unit).2.machine := by
  have hending := (run_congr h unit).2
  exact ⟨congrArg Ending.scopes hending, congrArg Ending.output hending⟩

theorem reports_congr {s s' : Session} (h : s.machine.Related Eq s'.machine) (hdump : s.dump = s'.dump)
    (unit : String) : s.reports unit = s'.reports unit := by
  have herror : s.runtimeError? unit = s'.runtimeError? unit :=
    congrArg Ending.error (run_congr h unit).2
  rw [reports, reports, hdump, herror]

theorem reportsOfAll_congr {s s' : Session} (h : s.machine.Related Eq s'.machine) (hdump : s.dump = s'.dump)
    (units : List String) : s.reportsOfAll units = s'.reportsOfAll units := by
  induction units generalizing s s' with
  | nil => rfl
  | cons unit units ih =>
    have hdump' : (s.run unit).2.dump = (s'.run unit).2.dump := by
      rw [(hasReported_run s unit).dump, (hasReported_run s' unit).dump, hdump]
    rw [reportsOfAll, reportsOfAll, reports_congr h hdump, ih (related_run h unit) hdump']

end Run

/-! ### Answers -/

/-- What can be seen of a unit that was run: its status, and what it wrote to the two sinks. -/
structure Answer where
  unit : String
  status : RunStatus
  output : ByteArray
  errors : ByteArray

def answer (s : Session) (unit : String) : Answer where
  unit
  status := (s.run unit).1
  output := (s.run unit).2.machine.output.contentSince s.machine.output
  errors := (s.run unit).2.errors.contentSince s.errors

/-- The answers to units that are run one after the other. -/
def answers (s : Session) : List String → List Answer
  | [] => []
  | unit :: units => s.answer unit :: (s.run unit).2.answers units

theorem related_after {s s' : Session} (h : s.machine.Related Eq s'.machine) (units : List String) :
    (s.after units).machine.Related Eq (s'.after units).machine := by
  induction units generalizing s s' with
  | nil => exact h
  | cons unit units ih => exact ih (related_run h unit)

theorem answers_congr {s s' : Session} (h : s.machine.Related Eq s'.machine) (units : List String) :
    (s.answers units).map Answer.status = (s'.answers units).map Answer.status ∧
      (s.answers units).map Answer.output = (s'.answers units).map Answer.output := by
  induction units generalizing s s' with
  | nil => exact ⟨rfl, rfl⟩
  | cons unit units ih =>
    have hrun := related_run h unit
    obtain ⟨hstatus, houtput⟩ := ih hrun
    simp only [answers, List.map_cons, hstatus, houtput, answer, (run_congr h unit).1, hrun.output, h.output,
      and_self]

/-- Neither the form in which expressions are shown nor the sink for the reports has a part in what units
do. A sink with limited room for the reports keeps the beginning of them, and there is one warning for each
report that is not wholly among the bytes that it keeps. -/
theorem answers_independent_of_reports (m : Machine) (units : List String) :
    (∀ (errors errors' : Sink) (dump dump' : Option DumpForm),
      let s : Session := ⟨m, errors, dump⟩
      let s' : Session := ⟨m, errors', dump'⟩
      (s.answers units).map Answer.status = (s'.answers units).map Answer.status ∧
        (s.answers units).map Answer.output = (s'.answers units).map Answer.output ∧
        (s.after units).machine.scopes = (s'.after units).machine.scopes) ∧
      ∀ (dump : Option DumpForm) (room : Nat) (cause : String),
        let whole : Session := ⟨m, {}, dump⟩
        let cut : Session := ⟨m, { capacity := .limited room cause }, dump⟩
        (whole.after units).errors.content = Sink.lines (whole.reportsOfAll units) ∧
          (whole.after units).machine.warnings = m.warnings ∧
          (cut.after units).errors.content = (whole.after units).errors.content.extract 0 room ∧
          ∃ within beyond, whole.reportsOfAll units = within ++ beyond ∧
            (Sink.lines within).size ≤ room ∧
            (∀ report ∈ beyond.head?, room < (Sink.lines (within ++ [report])).size) ∧
            (cut.after units).machine.warnings = m.warnings ++ beyond.map fun _ => .reportLost cause := by
  refine ⟨fun errors errors' dump dump' => ?_, fun dump room cause => ?_⟩
  · intro s s'
    have hm : s.machine.Related Eq s'.machine := ⟨rfl, rfl⟩
    obtain ⟨hstatus, houtput⟩ := answers_congr hm units
    exact ⟨hstatus, houtput, (related_after hm units).scopes⟩
  · intro whole cut
    have hm : cut.machine.Related Eq whole.machine := ⟨rfl, rfl⟩
    have hwhole := hasReported_after whole units
    have hcut := hasReported_after cut units
    rw [reportsOfAll_congr hm rfl units] at hcut
    have hreports : (whole.after units).errors.content = Sink.lines (whole.reportsOfAll units) := by
      rw [hwhole.errors, Sink.writeLines_fst, Sink.write_of_unlimited rfl]
      exact ByteArray.empty_append
    refine ⟨hreports, ?_, ?_, ?_⟩
    · rw [hwhole.warnings, Sink.writeLines_snd_of_unlimited rfl]
      exact List.append_nil _
    · rw [hreports, hcut.errors, Sink.writeLines_fst, Sink.write_of_limited rfl]
      exact ByteArray.empty_append
    · obtain ⟨within, beyond, hsplit, hwithin, hbeyond⟩ :=
        Sink.exists_split id room (whole.reportsOfAll units)
      simp only [List.map_id] at hwithin hbeyond
      refine ⟨within, beyond, hsplit, hwithin, hbeyond, ?_⟩
      rw [hcut.warnings, hsplit, Sink.writeLines_snd_of_split rfl hwithin hbeyond, List.map_map]
      rfl

end Session
end BlockScript
