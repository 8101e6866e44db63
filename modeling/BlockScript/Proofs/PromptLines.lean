import BlockScript.Prompt
import BlockScript.Proofs.FullSink
import BlockScript.Proofs.RejectedUnits

/-!
# The prompt is a session over lines

What an interactive run shows are the answers of one session to the lines of the input, with a mark before
each of them. The marks go to the output of the program itself, but as the output takes everything they make
no difference to what is run. The first line that is not text ends the run, and what has been shown stays.
-/
namespace BlockScript

/-! ### Lines -/

namespace Prompt

/-- The lines of a text: a newline ends a line and stands nowhere else, and only the last line may lack it. -/
inductive IsCut : List UInt8 → List (List UInt8) → Prop where
  | nil : IsCut [] []
  | last {line : List UInt8} (hne : line ≠ []) (h : 10 ∉ line) : IsCut line [line]
  | line {body bytes : List UInt8} {ls : List (List UInt8)} (h : 10 ∉ body) (hrest : IsCut bytes ls) :
      IsCut (body ++ 10 :: bytes) ((body ++ [10]) :: ls)

theorem lines_of_notMem {line : List UInt8} (hne : line ≠ []) (h : 10 ∉ line) : lines line = [line] := by
  induction line with
  | nil => exact absurd rfl hne
  | cons b rest ih =>
    obtain ⟨hb, hrest⟩ : 10 ≠ b ∧ 10 ∉ rest := by simpa using h
    rw [lines, if_neg hb.symm]
    by_cases hnil : rest = []
    · rw [hnil, lines]
    · rw [ih hnil hrest]

theorem lines_append {body : List UInt8} (h : 10 ∉ body) (bytes : List UInt8) :
    lines (body ++ 10 :: bytes) = (body ++ [10]) :: lines bytes := by
  induction body with
  | nil => rw [List.nil_append, lines, if_pos rfl, List.nil_append]
  | cons b rest ih =>
    obtain ⟨hb, hrest⟩ : 10 ≠ b ∧ 10 ∉ rest := by simpa using h
    rw [List.cons_append, lines, if_neg hb.symm, ih hrest]
    rfl

/-- There is only one way to cut a text. -/
theorem IsCut.lines_eq {bytes : List UInt8} {ls : List (List UInt8)} (h : IsCut bytes ls) :
    lines bytes = ls := by
  induction h with
  | nil => rfl
  | last hne h => exact lines_of_notMem hne h
  | line h hrest ih => rw [lines_append h, ih]

theorem isCut_lines (bytes : List UInt8) : IsCut bytes (lines bytes) := by
  induction bytes with
  | nil => exact .nil
  | cons b rest ih =>
    by_cases hb : b = 10
    · rw [lines, if_pos hb, hb]
      exact @IsCut.line [] _ _ List.not_mem_nil ih
    · have hcons : ∀ {bytes : List UInt8}, 10 ∉ bytes → 10 ∉ b :: bytes := fun h => by
        simpa [eq_comm] using And.intro hb h
      rw [lines, if_neg hb]
      generalize lines rest = ls at ih
      cases ih with
      | nil => exact .last (List.cons_ne_nil b []) (hcons List.not_mem_nil)
      | last hne h => exact .last (List.cons_ne_nil b rest) (hcons h)
      | line h hrest => exact .line (hcons h) hrest

/-- The bytes of a unit. -/
def utf8 (unit : String) : List UInt8 := unit.toUTF8.data.toList

theorem decode_utf8 (unit : String) : decode ⟨(utf8 unit).toArray⟩ = .ok unit := by
  have hbytes : String.fromUTF8? unit.toUTF8 = some unit := by
    rw [String.toUTF8_eq_toByteArray, String.fromUTF8?, dif_pos unit.isValidUTF8]
    rfl
  rw [utf8, Array.toArray_toList]
  change decode unit.toUTF8 = _
  rw [decode, hbytes]

theorem decode_of_not_isValidUTF8 {bytes : ByteArray} (h : ¬ bytes.IsValidUTF8) :
    decode bytes = .error .notText := by
  rw [decode, String.fromUTF8?, dif_neg h]

/-- The lines of the input are the units, and after them the first line that is not text with all that follow,
if there is such a line. -/
structure Splits (input : ByteArray) (units : List String) (rest : List (List UInt8)) : Prop where
  cut : IsCut input.data.toList (units.map utf8 ++ rest)
  notText : ∀ line ∈ rest.head?, ¬ (ByteArray.mk line.toArray).IsValidUTF8

theorem exists_units (ls : List (List UInt8)) :
    ∃ (units : List String) (rest : List (List UInt8)), ls = units.map utf8 ++ rest ∧
      ∀ line ∈ rest.head?, ¬ (ByteArray.mk line.toArray).IsValidUTF8 := by
  induction ls with
  | nil => exact ⟨[], [], rfl, fun _ h => by cases h⟩
  | cons line ls ih =>
    by_cases hline : (ByteArray.mk line.toArray).IsValidUTF8
    · obtain ⟨units, rest, hls, hrest⟩ := ih
      exact ⟨String.fromUTF8 _ hline :: units, rest, congrArg (line :: ·) hls, hrest⟩
    · refine ⟨[], line :: ls, rfl, fun other hother => ?_⟩
      obtain rfl : line = other := by simpa using hother
      exact hline

end Prompt

/-! ### Sessions with sinks that take everything -/

/-- On a sink that takes everything a program ends as on an empty one. -/
theorem Ending.ofProgram_of_unlimited {m : Machine} (h : m.output.capacity = .unlimited)
    (program : List Stmt) :
    ofProgram program m =
      { ofProgram program { scopes := m.scopes } with
        output := { m.output with
          content := m.output.content ++ Printing.lines (Stmt.printingsOfAll program m.scopes) } } := by
  rw [ofProgram_eq_cutShort, Sink.printAll_of_unlimited h]
  rfl

theorem Sink.contentSince_append (s : Sink) (bytes : ByteArray) :
    contentSince { s with content := s.content ++ bytes } s = bytes := by
  rw [contentSince]
  exact ByteArray.extract_append_eq_right rfl ByteArray.size_append

namespace Session

/-- Neither the output nor the sink for reports is ever full. -/
structure Unlimited (s : Session) : Prop where
  output : s.machine.output.capacity = .unlimited
  errors : s.errors.capacity = .unlimited

/-- The session with its bindings, but with nothing written or recorded yet. -/
def cleared (s : Session) : Session := { machine := { scopes := s.machine.scopes }, dump := s.dump }

theorem unlimited_cleared (s : Session) : s.cleared.Unlimited := ⟨rfl, rfl⟩

/-- What a unit prints on a sink that is never full. -/
def printed (s : Session) (unit : String) : ByteArray :=
  match readProgram unit with
  | .ok program => Printing.lines (Stmt.printingsOfAll program s.machine.scopes)
  | .error _ => .empty

section Run
variable {s : Session}

/-- A unit does the same whatever was written before, and writes behind that. -/
theorem run_of_unlimited (hs : s.Unlimited) (unit : String) :
    (s.run unit).1 = (s.cleared.run unit).1 ∧
      s.ending unit =
        { s.cleared.ending unit with
          output := { s.machine.output with content := s.machine.output.content ++ s.printed unit } } := by
  cases hread : readProgram unit with
  | error errors =>
    obtain ⟨hending, hstatus⟩ := ending_run_of_error (s := s) hread
    obtain ⟨hending', hstatus'⟩ := ending_run_of_error (s := s.cleared) hread
    rw [hstatus, hstatus', hending, hending', printed, hread, ByteArray.append_empty]
    exact ⟨rfl, rfl⟩
  | ok program =>
    obtain ⟨hending, hstatus⟩ := ending_run (s := s) hread
    obtain ⟨hending', hstatus'⟩ := ending_run (s := s.cleared) hread
    rw [hstatus, hstatus', hending, hending', Ending.ofProgram_of_unlimited hs.output, printed, hread]
    exact ⟨rfl, rfl⟩

theorem output_run (hs : s.Unlimited) (unit : String) :
    (s.run unit).2.machine.output =
      { s.machine.output with content := s.machine.output.content ++ s.printed unit } :=
  congrArg Ending.output (run_of_unlimited hs unit).2

theorem unlimited_run_of_unlimited (hs : s.Unlimited) (unit : String) : (s.run unit).2.Unlimited where
  output := by
    rw [output_run hs unit]
    exact hs.output
  errors := unlimited_run hs.errors unit

theorem cleared_run (hs : s.Unlimited) (unit : String) :
    (s.run unit).2.cleared = (s.cleared.run unit).2.cleared := by
  have hscopes : (s.run unit).2.machine.scopes = (s.cleared.run unit).2.machine.scopes :=
    congrArg Ending.scopes (run_of_unlimited hs unit).2
  rw [cleared, cleared, hscopes, (hasReported_run s unit).dump, (hasReported_run s.cleared unit).dump]
  rfl

theorem reports_cleared (hs : s.Unlimited) (unit : String) : s.cleared.reports unit = s.reports unit := by
  have herror : s.runtimeError? unit = s.cleared.runtimeError? unit :=
    congrArg Ending.error (run_of_unlimited hs unit).2
  rw [reports, reports, herror]
  rfl

theorem output_answer (hs : s.Unlimited) (unit : String) : (s.answer unit).output = s.printed unit := by
  rw [answer, output_run hs unit]
  exact Sink.contentSince_append _ _

theorem answer_cleared (hs : s.Unlimited) (unit : String) : s.cleared.answer unit = s.answer unit := by
  have herrors : (s.cleared.answer unit).errors = (s.answer unit).errors := by
    rw [errors_answer s.unlimited_cleared.errors, errors_answer hs.errors, reports_cleared hs]
  have houtput : (s.cleared.answer unit).output = (s.answer unit).output := by
    rw [output_answer s.unlimited_cleared, output_answer hs]
    rfl
  have hstatus : (s.cleared.answer unit).status = (s.answer unit).status := (run_of_unlimited hs unit).1.symm
  rw [answer] at herrors houtput hstatus ⊢
  rw [answer, Answer.mk.injEq]
  exact ⟨rfl, hstatus, houtput, herrors⟩

/-- The answers of a session depend on its bindings and on the form in which expressions are shown. -/
theorem answers_cleared (hs : s.Unlimited) (units : List String) :
    s.cleared.answers units = s.answers units := by
  induction units generalizing s with
  | nil => rfl
  | cons unit units ih =>
    rw [answers, answers, answer_cleared hs, ← ih (unlimited_run_of_unlimited hs unit), cleared_run hs unit,
      ih (unlimited_run_of_unlimited s.unlimited_cleared unit)]

theorem errors_run (hs : s.Unlimited) (unit : String) :
    (s.run unit).2.errors.content = s.errors.content ++ (s.answer unit).errors := by
  rw [errors_answer hs.errors, (hasReported_run s unit).errors, Sink.writeLines_fst,
    Sink.write_of_unlimited hs.errors]

end Run
end Session

/-! ### The run of the prompt -/

namespace Prompt
variable {s : Session}

/-- What is shown up to the mark after the last answer. -/
def dialog : List Session.Answer → ByteArray
  | [] => mark.toUTF8
  | a :: rest => mark.toUTF8 ++ a.output ++ dialog rest

/-- What is reported in the answers. -/
def reported : List Session.Answer → ByteArray
  | [] => .empty
  | a :: rest => a.errors ++ reported rest

theorem output_say (hs : s.Unlimited) (text : String) :
    (say s text).machine.output =
      { s.machine.output with content := s.machine.output.content ++ text.toUTF8 } := by
  rw [say, Sink.write_of_unlimited hs.output]

theorem unlimited_say (hs : s.Unlimited) (text : String) : (say s text).Unlimited where
  output := by
    rw [output_say hs]
    exact hs.output
  errors := hs.errors

/-- The session after units that are text. -/
def after (s : Session) (units : List String) : Session :=
  units.foldl (fun s unit => say (s.run unit).2 mark) s

theorem foldlM_answer (s : Session) (units : List String) (rest : List (List UInt8)) :
    ((units.map utf8 ++ rest).map fun line => ByteArray.mk line.toArray).foldlM answer s =
      (rest.map fun line => ByteArray.mk line.toArray).foldlM answer (after s units) := by
  induction units generalizing s with
  | nil => rfl
  | cons unit units ih =>
    have hanswer : answer s ⟨(utf8 unit).toArray⟩ = .ok (say (s.run unit).2 mark) := by
      rw [answer, decode_utf8]
    rw [List.map_cons, List.cons_append, List.map_cons, List.foldlM_cons, hanswer]
    exact ih (say (s.run unit).2 mark)

theorem unlimited_after (hs : s.Unlimited) (units : List String) : (after s units).Unlimited := by
  induction units generalizing s with
  | nil => exact hs
  | cons unit units ih => exact ih (unlimited_say (Session.unlimited_run_of_unlimited hs unit) mark)

/-- A mark makes no difference to the answers. -/
theorem answers_say (hs : s.Unlimited) (text : String) (units : List String) :
    (say s text).answers units = s.answers units := by
  rw [← Session.answers_cleared (unlimited_say hs text), ← Session.answers_cleared hs]
  rfl

/-- From a first mark on, the output is the dialog. -/
theorem output_after {shown : ByteArray} (hs : s.Unlimited)
    (hshown : s.machine.output.content = shown ++ mark.toUTF8) (units : List String) :
    (after s units).machine.output.content = shown ++ dialog (s.answers units) := by
  induction units generalizing s shown with
  | nil => exact hshown
  | cons unit units ih =>
    have hrun := Session.unlimited_run_of_unlimited hs unit
    have hsay : (say (s.run unit).2 mark).machine.output.content =
        (shown ++ mark.toUTF8 ++ (s.answer unit).output) ++ mark.toUTF8 := by
      rw [output_say hrun, Session.output_run hs, Session.output_answer hs, hshown]
    have hafter := ih (unlimited_say hrun mark) hsay
    rw [answers_say hrun] at hafter
    rw [Session.answers, dialog, ← ByteArray.append_assoc, ← ByteArray.append_assoc]
    exact hafter

theorem errors_after (hs : s.Unlimited) (units : List String) :
    (after s units).errors.content = s.errors.content ++ reported (s.answers units) := by
  induction units generalizing s with
  | nil => exact ByteArray.append_empty.symm
  | cons unit units ih =>
    have hrun := Session.unlimited_run_of_unlimited hs unit
    have hafter := ih (unlimited_say hrun mark)
    rw [answers_say hrun] at hafter
    rw [Session.answers, reported, ← ByteArray.append_assoc, ← Session.errors_run hs]
    exact hafter

/-- The units are all that is run. -/
theorem foldlM_answer_of_splits {input : ByteArray} {units : List String} {rest : List (List UInt8)}
    (h : Splits input units rest) (s : Session) :
    ((lines input.data.toList).map fun line => ByteArray.mk line.toArray).foldlM answer s =
      if rest = [] then .ok (after s units)
      else .error ((Outcome.ofSession (after s units)).failReading "stdin" .notText) := by
  rw [h.cut.lines_eq, foldlM_answer]
  cases rest with
  | nil => rfl
  | cons line rest =>
    have hanswer : answer (after s units) ⟨line.toArray⟩ =
        .error ((Outcome.ofSession (after s units)).failReading "stdin" .notText) := by
      rw [answer, decode_of_not_isValidUTF8 (h.notText line rfl)]
    rw [List.map_cons, List.foldlM_cons, hanswer, if_neg (List.cons_ne_nil line rest)]
    rfl

/-- The input has lines up to the first that is not text, and these are run as the units of one session. The
output is the welcome, the answers with a mark before each, and one more mark; the errors are what the session
reports. If all lines are text, the run ends well with a newline, whatever the units did. If not, it ends with
the exit code 1 and an error for the line that could not be read. -/
theorem run_eq_session (dump : Option DumpForm) (input : ByteArray) :
    (∃ units rest, Splits input units rest) ∧
      ∀ units rest, Splits input units rest →
        let answers := ({ dump } : Session).answers units
        run dump input =
          if rest = [] then ⟨0, welcome.toUTF8 ++ dialog answers ++ "\n".toUTF8, reported answers⟩
          else
            ⟨1, welcome.toUTF8 ++ dialog answers,
              reported answers ++
                "Error: Reading stdin\n\nCaused by:\n    stream did not contain valid UTF-8\n".toUTF8⟩ := by
  constructor
  · obtain ⟨units, rest, hlines, hrest⟩ := exists_units (lines input.data.toList)
    exact ⟨units, rest, hlines ▸ isCut_lines input.data.toList, hrest⟩
  · intro units rest h answers
    have hnew : ({ dump } : Session).Unlimited := ⟨rfl, rfl⟩
    have hwelcome := unlimited_say hnew welcome
    have hstart : (start dump).Unlimited := unlimited_say hwelcome mark
    have hshown : (start dump).machine.output.content = welcome.toUTF8 ++ mark.toUTF8 := by
      rw [start, output_say hwelcome, output_say hnew]
      exact congrArg (· ++ mark.toUTF8) ByteArray.empty_append
    have hanswers : (start dump).answers units = answers := by
      rw [start, answers_say hwelcome, answers_say hnew]
    have houtput := output_after hstart hshown units
    have herrors : (after (start dump) units).errors.content = reported answers := by
      rw [errors_after hstart, hanswers]
      exact ByteArray.empty_append
    rw [hanswers] at houtput
    rw [run, foldlM_answer_of_splits h]
    by_cases hrest : rest = []
    · rw [if_pos hrest, if_pos hrest]
      change Outcome.ofSession (say (after (start dump) units) "\n") = _
      rw [Outcome.ofSession, output_say (unlimited_after hstart units), houtput]
      exact congrArg _ herrors
    · rw [if_neg hrest, if_neg hrest]
      change Outcome.mk 1 (after (start dump) units).machine.output.content _ = _
      rw [houtput]
      change Outcome.mk 1 _ ((after (start dump) units).errors.content ++ _) = _
      rw [herrors]
      rfl

/-- The byte 255 is no text, and the line after it is not run. -/
theorem run_eq_session_invalid :
    let input : ByteArray := "var a = 1;\nprint a;\n".toUTF8 ++ ⟨#[255, 10]⟩ ++ "print 2;".toUTF8
    Splits input ["var a = 1;\n", "print a;\n"] [[255, 10], utf8 "print 2;"] ∧
      run none input =
        ⟨1, "Welcome to the interactive prompt for the finch interpreter.\n\n> > 1\n> ".toUTF8,
          "Error: Reading stdin\n\nCaused by:\n    stream did not contain valid UTF-8\n".toUTF8⟩ := by
  intro input
  have hlines : lines input.data.toList =
      ["var a = 1;\n", "print a;\n"].map utf8 ++ [[255, 10], utf8 "print 2;"] := by
    decide +kernel
  have hsplits : Splits input ["var a = 1;\n", "print a;\n"] [[255, 10], utf8 "print 2;"] := by
    refine ⟨hlines ▸ isCut_lines input.data.toList, fun line hline => ?_⟩
    obtain rfl : [255, 10] = line := by simpa using hline
    decide +kernel
  refine ⟨hsplits, ((run_eq_session none input).2 _ _ hsplits).trans ?_⟩
  rw [if_neg (List.cons_ne_nil _ _)]
  have houtput : welcome.toUTF8 ++ dialog (({} : Session).answers ["var a = 1;\n", "print a;\n"]) =
      "Welcome to the interactive prompt for the finch interpreter.\n\n> > 1\n> ".toUTF8 := by
    decide +kernel
  have herrors : reported (({} : Session).answers ["var a = 1;\n", "print a;\n"]) = .empty := by
    decide +kernel
  rw [houtput, herrors, ByteArray.empty_append]

end Prompt
end BlockScript
