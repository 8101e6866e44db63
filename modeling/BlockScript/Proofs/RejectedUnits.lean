import BlockScript.Proofs.SessionReports

/-!
# Units that are rejected

A session goes on after a unit with a syntax error as if there had been no such unit: the only trace of it
is what it reported.
-/
namespace BlockScript

/-- Whether nothing is wrong with the text of a unit. -/
def accepted (unit : String) : Bool := (readProgram unit).isOk

/-- What is wrong with a unit that is rejected: first what scanning finds, then what parsing finds. -/
theorem readProgram_of_not_accepted {unit : String} (h : accepted unit = false) :
    readProgram unit =
      .error ((Scanned.ofSource unit).errors ++ (Parsed.ofTokens (Scanned.ofSource unit).tokens).errors) := by
  rw [accepted] at h
  rw [readProgram, Reading.program] at h ⊢
  split at h
  · cases h
  · next hne =>
    rw [if_neg hne]
    rfl

namespace Session
variable {s s' : Session} {unit : String}

theorem unlimited_run (hs : s.errors.capacity = .unlimited) (unit : String) :
    (s.run unit).2.errors.capacity = .unlimited := by
  rw [(hasReported_run s unit).errors, Sink.writeLines_fst, Sink.write_of_unlimited hs]
  exact hs

/-- On an unlimited sink a unit leaves just the lines that it reports. -/
theorem errors_answer (hs : s.errors.capacity = .unlimited) (unit : String) :
    (s.answer unit).errors = Sink.lines (s.reports unit) := by
  rw [answer]
  change ((s.run unit).2.errors.contentSince s.errors) = _
  rw [(hasReported_run s unit).errors, Sink.writeLines_fst, Sink.write_of_unlimited hs, Sink.contentSince]
  exact ByteArray.extract_append_eq_right rfl ByteArray.size_append

theorem answer_congr (h : s.machine.Related Eq s'.machine) (hdump : s.dump = s'.dump)
    (hs : s.errors.capacity = .unlimited) (hs' : s'.errors.capacity = .unlimited) (unit : String) :
    s.answer unit = s'.answer unit := by
  have herrors : (s.answer unit).errors = (s'.answer unit).errors := by
    rw [errors_answer hs, errors_answer hs', reports_congr h hdump]
  rw [answer, answer, Answer.mk.injEq]
  refine ⟨rfl, (run_congr h unit).1, ?_, herrors⟩
  rw [(related_run h unit).output, h.output]

theorem answers_eq_of_related (h : s.machine.Related Eq s'.machine) (hdump : s.dump = s'.dump)
    (hs : s.errors.capacity = .unlimited) (hs' : s'.errors.capacity = .unlimited) (units : List String) :
    s.answers units = s'.answers units := by
  induction units generalizing s s' with
  | nil => rfl
  | cons unit units ih =>
    have hdump' : (s.run unit).2.dump = (s'.run unit).2.dump := by
      rw [(hasReported_run s unit).dump, (hasReported_run s' unit).dump, hdump]
    rw [answers, answers, answer_congr h hdump hs hs',
      ih (related_run h unit) hdump' (unlimited_run hs unit) (unlimited_run hs' unit)]

/-- After a rejected unit the machine is as before, but for its log. -/
theorem related_run_of_not_accepted (hunit : accepted unit = false) :
    (s.run unit).2.machine.Related Eq s.machine := by
  have hending := (ending_run_of_error (s := s) (readProgram_of_not_accepted hunit)).1
  exact ⟨congrArg Ending.scopes hending, congrArg Ending.output hending⟩

/-- Without the rejected units the others are answered in the same way. -/
theorem answers_filter_accepted (hs : s.errors.capacity = .unlimited) (units : List String) :
    s.answers (units.filter accepted) = (s.answers units).filter (accepted ·.unit) := by
  induction units generalizing s with
  | nil => rfl
  | cons unit units ih =>
    have hrun := unlimited_run hs unit
    rw [answers]
    by_cases hunit : accepted unit = true
    · have hanswer : accepted (s.answer unit).unit = true := hunit
      rw [List.filter_cons_of_pos hunit, answers, ih hrun, List.filter_cons, if_pos hanswer]
    · -- only the log and the sink for reports are not what they were before the unit
      have hrest := answers_eq_of_related
        (related_run_of_not_accepted (Bool.eq_false_iff.2 hunit)) (hasReported_run s unit).dump hrun hs
      have hanswer : ¬ accepted (s.answer unit).unit = true := hunit
      rw [List.filter_cons_of_neg hunit, ih hs, ← hrest, List.filter_cons, if_neg hanswer]

/-- All that comes of a rejected unit are the displays of its errors. -/
theorem answer_of_not_accepted (hs : s.errors.capacity = .unlimited) (hunit : accepted unit = false) :
    s.answer unit =
      { unit
        status := { hadSyntaxError := true }
        output := .empty
        errors := Sink.lines (((Scanned.ofSource unit).errors ++
          (Parsed.ofTokens (Scanned.ofSource unit).tokens).errors).map SyntaxError.text) } := by
  have hread := readProgram_of_not_accepted hunit
  have herrors := errors_answer hs unit
  rw [reports, hread] at herrors
  rw [answer] at herrors ⊢
  rw [Answer.mk.injEq]
  refine ⟨rfl, (ending_run_of_error hread).2, ?_, herrors⟩
  rw [(related_run_of_not_accepted hunit).output, Sink.contentSince, ByteArray.extract_same]

theorem not_both_errors (s : Session) (unit : String) :
    ¬ ((s.run unit).1.hadSyntaxError ∧ (s.run unit).1.hadRuntimeError) := by
  cases hread : readProgram unit with
  | error errors =>
    rw [(ending_run_of_error (s := s) hread).2]
    exact fun h => Bool.false_ne_true h.2
  | ok program =>
    rw [(ending_run (s := s) hread).2]
    exact fun h => Bool.false_ne_true h.1

/-- Each answer is that of a session with the same unlimited sink for reports. -/
theorem exists_of_mem_answers (hs : s.errors.capacity = .unlimited) {units : List String} {a : Answer}
    (ha : a ∈ s.answers units) :
    ∃ t : Session, t.errors.capacity = .unlimited ∧ a = t.answer a.unit := by
  induction units generalizing s with
  | nil => cases ha
  | cons unit units ih =>
    rw [answers] at ha
    rcases List.mem_cons.1 ha with rfl | ha
    · exact ⟨s, hs, rfl⟩
    · exact ih (unlimited_run hs unit) ha

/-- The rejected units of a session can be left out: the others are answered as before. A rejected unit has
the status of a syntax error alone, writes no output, and reports each error of scanning and then each error
of parsing on a line, and nothing else. No unit has errors of both kinds. -/
theorem rejected_units_leave_no_trace (hs : s.errors.capacity = .unlimited) (units : List String) :
    s.answers (units.filter accepted) = (s.answers units).filter (accepted ·.unit) ∧
      (∀ a ∈ s.answers units, accepted a.unit = false →
        a.status = { hadSyntaxError := true } ∧ a.status.exitCode = 65 ∧ a.output = .empty ∧
          a.errors = Sink.lines (((Scanned.ofSource a.unit).errors ++
            (Parsed.ofTokens (Scanned.ofSource a.unit).tokens).errors).map SyntaxError.text)) ∧
      ∀ (t : Session) (unit : String),
        ¬ ((t.run unit).1.hadSyntaxError ∧ (t.run unit).1.hadRuntimeError) := by
  refine ⟨answers_filter_accepted hs units, fun a ha hunit => ?_, not_both_errors⟩
  obtain ⟨t, ht, heq⟩ := exists_of_mem_answers hs ha
  rw [heq, answer_of_not_accepted ht hunit]
  exact ⟨rfl, rfl, rfl, rfl⟩

/-- The statement before the stray character is not run, and the third unit prints what the first has
stored. -/
theorem rejected_units_leave_no_trace_stray :
    let units := ["var a = 1;", "a = 2; @", "print a;"]
    ({} : Session).answers ["var a = 1;", "print a;"] =
      (({} : Session).answers units).filter (accepted ·.unit) := by
  intro units
  have hs : ({} : Session).errors.capacity = .unlimited := rfl
  have hfilter : units.filter accepted = ["var a = 1;", "print a;"] := by decide +kernel
  rw [← hfilter]
  exact (rejected_units_leave_no_trace hs units).1

end Session
end BlockScript
