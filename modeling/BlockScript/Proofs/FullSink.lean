import BlockScript.Proofs.Endings
import BlockScript.Proofs.SinkLines

/-!
# Runs that fill their sink

What a run prints does not depend on its sink until something is lost: it is a list of printings, one for
each `print` statement that is executed. On a sink that is full before the end of the list the run stops at
the first printing that does not fit, in the scopes that are open there outside the blocks it stands in.
-/
namespace BlockScript

/-- The execution of a `print` statement: its line, what the value shows, and the scopes once the value is
known. -/
structure Printing where
  line : UInt32
  text : String
  scopes : Scopes

/-- The printing when the innermost scope is left after it. -/
def Printing.leave (p : Printing) : Printing := { p with scopes := p.scopes.pop }

namespace Stmt

mutual

/-- What a statement prints that is run in the given scopes, with the scopes that are left when the run ends
at that printing. -/
def printings : Stmt → Scopes → List Printing
  | .block body, s => (printingsOfAll body s.push).map Printing.leave
  | .print e line, s =>
    match e.eval s with
    | .ok v after => [⟨line, v.text, after⟩]
    | .error _ _ => []
  | .expr _, _ | .declare _ _, _ => []

def printingsOfAll : List Stmt → Scopes → List Printing
  | [], _ => []
  | first :: rest, s =>
    first.printings s ++
      match first.exec { scopes := s } with
      | .ok () m => printingsOfAll rest m.scopes
      | .error _ _ => []

end

end Stmt

/-- The bytes of the values and their line ends. -/
def Printing.lines (ps : List Printing) : ByteArray := Sink.lines (ps.map Printing.text)

namespace Sink

/-- Prints up to the first printing that does not fit. The second part is that printing and the cause. -/
def printAll (s : Sink) : List Printing → Sink × Option (Printing × String)
  | [] => (s, none)
  | p :: ps =>
    match s.writeLine p.text with
    | (s, none) => s.printAll ps
    | (s, some cause) => (s, some (p, cause))

theorem printAll_append (s : Sink) (ps ps' : List Printing) :
    s.printAll (ps ++ ps') =
      match s.printAll ps with
      | (s, none) => s.printAll ps'
      | (s, some stop) => (s, some stop) := by
  induction ps generalizing s with
  | nil => rfl
  | cons p ps ih =>
    rw [List.cons_append, printAll, printAll]
    obtain ⟨s, cause⟩ := s.writeLine p.text
    cases cause with
    | none => exact ih s
    | some cause => rfl

theorem printAll_map_leave (s : Sink) (ps : List Printing) :
    s.printAll (ps.map Printing.leave) =
      ((s.printAll ps).1, (s.printAll ps).2.map fun (p, cause) => (p.leave, cause)) := by
  induction ps generalizing s with
  | nil => rfl
  | cons p ps ih =>
    rw [List.map_cons, printAll, printAll]
    change (match s.writeLine p.text with
      | (s, none) => s.printAll (ps.map Printing.leave)
      | (s, some cause) => (s, some (p.leave, cause))) = _
    obtain ⟨s, cause⟩ := s.writeLine p.text
    cases cause with
    | none => exact ih s
    | some cause => rfl

/-- As long as nothing is lost, printing is writing lines. -/
theorem printAll_of_writeLines {s : Sink} {ps : List Printing}
    (h : (s.writeLines (ps.map Printing.text)).2 = []) :
    s.printAll ps = ((s.write (Printing.lines ps)).1, none) := by
  rw [Printing.lines, ← writeLines_fst]
  induction ps generalizing s with
  | nil => rfl
  | cons p ps ih =>
    rw [List.map_cons, writeLines] at h ⊢
    rw [printAll]
    generalize s.writeLine p.text = first at h
    obtain ⟨s, cause⟩ := first
    cases cause with
    | none => exact ih h
    | some cause => cases h

theorem printAll_of_unlimited {s : Sink} (h : s.capacity = .unlimited) (ps : List Printing) :
    s.printAll ps = ({ s with content := s.content ++ Printing.lines ps }, none) := by
  rw [printAll_of_writeLines (writeLines_snd_of_unlimited h _), write_of_unlimited h]

section Limited
variable {s : Sink} {room : Nat} {cause : String} {ps : List Printing}

theorem printAll_of_le (h : s.capacity = .limited room cause) (hle : (Printing.lines ps).size ≤ room) :
    s.printAll ps = ((s.write (Printing.lines ps)).1, none) :=
  printAll_of_writeLines (writeLines_snd_of_le h hle)

/-- If not all of the printings fit, the sink is full after the one that its limit falls into. -/
theorem printAll_of_lt (h : s.capacity = .limited room cause) (hlt : room < (Printing.lines ps).size) :
    ∃ before p after, ps = before ++ p :: after ∧
      (Printing.lines before).size ≤ room ∧ room < (Printing.lines (before ++ [p])).size ∧
      (s.printAll ps).1.content = s.content ++ (Printing.lines ps).extract 0 room ∧
      (s.printAll ps).2 = some (p, cause) := by
  obtain ⟨before, beyond, rfl, hbefore, hbeyond⟩ := exists_split Printing.text room ps
  cases beyond with
  | nil =>
    rw [List.append_nil] at hlt
    exact absurd hlt (Nat.not_lt_of_le hbefore)
  | cons p after =>
    have hfits : (Printing.lines before).size ≤ room := hbefore
    have hp : room < (Printing.lines (before ++ [p])).size := hbeyond p rfl
    have hsplit : Printing.lines (before ++ [p]) = Printing.lines before ++ lines [p.text] := by
      rw [Printing.lines, List.map_append, lines_append]
      rfl
    have hwhole : Printing.lines (before ++ p :: after) =
        Printing.lines (before ++ [p]) ++ Printing.lines after := by
      rw [List.append_cons, Printing.lines, List.map_append, lines_append]
      rfl
    have hwritten := write_of_limited h (Printing.lines before)
    have hcapacity : (s.write (Printing.lines before)).1.capacity =
        .limited (room - (Printing.lines before).size) cause := by rw [hwritten]
    obtain ⟨-, hcause⟩ := writeLine_of_limited hcapacity p.text
    -- the limit is within the text of `p`, so nothing of what follows it is kept
    have hnone : (Printing.lines after).extract (0 - (Printing.lines (before ++ [p])).size)
        (room - (Printing.lines (before ++ [p])).size) = .empty := by
      rw [Nat.zero_sub, Nat.sub_eq_zero_of_le (Nat.le_of_lt hp), ByteArray.extract_same]
    have hcontent : ((s.write (Printing.lines before)).1.writeLine p.text).1.content =
        s.content ++ (Printing.lines (before ++ p :: after)).extract 0 room := by
      rw [writeLine_eq, write_write, ← hsplit, write_of_limited h, hwhole, ByteArray.extract_append, hnone,
        ByteArray.append_empty]
    rw [hsplit, ByteArray.size_append] at hp
    rw [if_neg (by omega)] at hcause
    have hstop : s.printAll (before ++ p :: after) =
        (s.write (Printing.lines before)).1.printAll (p :: after) := by
      rw [printAll_append, printAll_of_le h hfits]
    refine ⟨before, p, after, rfl, hfits, hbeyond p rfl, ?_⟩
    rw [hstop, printAll]
    generalize (s.write (Printing.lines before)).1.writeLine p.text = result at hcause hcontent
    obtain ⟨output, cause'⟩ := result
    subst hcause
    exact ⟨hcontent, rfl⟩

end Limited
end Sink

namespace Ending

/-- The ending of a run on another sink, given what came of the printings there. -/
def cutShort (whole : Ending) : Sink × Option (Printing × String) → Ending
  | (output, none) => { whole with output }
  | (output, some (p, cause)) => ⟨some ⟨p.line, .output cause⟩, p.scopes, output⟩

theorem cutShort_cutShort_none (whole : Ending) (output : Sink)
    (result : Sink × Option (Printing × String)) :
    (whole.cutShort (output, none)).cutShort result = whole.cutShort result := by
  obtain ⟨output', stop⟩ := result
  cases stop with
  | none => rfl
  | some stop => rfl

theorem leave_cutShort (whole : Ending) (result : Sink × Option (Printing × String)) :
    (whole.cutShort result).leave =
      whole.leave.cutShort (result.1, result.2.map fun (p, cause) => (p.leave, cause)) := by
  obtain ⟨output, stop⟩ := result
  cases stop with
  | none => rfl
  | some stop => rfl

mutual

theorem ofResult_exec_eq_cutShort : (s : Stmt) → (m : Machine) →
    ofResult (s.exec m) =
      (ofResult (s.exec { scopes := m.scopes })).cutShort (m.output.printAll (s.printings m.scopes))
  | .block body, m => by
    have hbody := ofProgram_eq_cutShort body m.enter
    have hlog : ofProgram body ({ scopes := m.scopes } : Machine).enter =
        ofProgram body { scopes := m.scopes.push } := ofProgram_eq body ⟨rfl, rfl⟩
    rw [Stmt.exec, ofResult_inNewScope, ofResult_inNewScope, Stmt.printings, Sink.printAll_map_leave,
      ← leave_cutShort]
    change (ofProgram body m.enter).leave = ((ofProgram body _).cutShort _).leave
    rw [hbody, hlog]
    rfl
  | .expr e, m => by
    simp only [Stmt.exec, Stmt.printings, Sink.printAll, bind, EStateM.bind, Exec.evaluate]
    cases e.eval m.scopes with
    | ok v scopes => rfl
    | error error scopes => rfl
  | .print e line, m => by
    simp only [Stmt.exec, Stmt.printings, bind, EStateM.bind, Exec.evaluate]
    cases e.eval m.scopes with
    | ok v scopes =>
      simp only [Sink.printAll, Exec.printLine]
      obtain ⟨output, cause⟩ := m.output.writeLine v.text
      cases cause with
      | none => rfl
      | some cause => rfl
    | error error scopes => rfl
  | .declare name none, m => by
    rw [Stmt.exec, Stmt.printings]
    rfl
  | .declare name (some e), m => by
    simp only [Stmt.exec, Stmt.printings, Sink.printAll, bind, EStateM.bind, Exec.evaluate]
    cases e.eval m.scopes with
    | ok v scopes => rfl
    | error error scopes => rfl

theorem ofProgram_eq_cutShort : (program : List Stmt) → (m : Machine) →
    ofProgram program m =
      (ofProgram program { scopes := m.scopes }).cutShort
        (m.output.printAll (Stmt.printingsOfAll program m.scopes))
  | [], m => by
    rw [ofProgram, ofProgram, Stmt.execAll, Stmt.printingsOfAll]
    rfl
  | s :: rest, m => by
    have hfirst := ofResult_exec_eq_cutShort s m
    have hunlimited := congrArg output (ofResult_exec_eq_cutShort s { scopes := m.scopes })
    rw [Sink.printAll_of_unlimited rfl] at hunlimited
    rw [ofProgram_cons s rest m, ofProgram_cons s rest, ofProgram_singleton, ofProgram_singleton, hfirst,
      Stmt.printingsOfAll, Sink.printAll_append]
    obtain ⟨output, stop⟩ := m.output.printAll (s.printings m.scopes)
    cases stop with
    | some stop => rfl
    | none =>
      cases hs : s.exec { scopes := m.scopes } with
      | error e k => rfl
      | ok v k =>
        rw [hs] at hunlimited
        -- the unlimited run goes on with its own output, so both runs of the rest are compared with the one
        -- that has printed nothing
        have hrest := ofProgram_eq_cutShort rest { scopes := k.scopes, output := output }
        have hwhole := ofProgram_eq_cutShort rest { scopes := k.scopes, output := k.output }
        have hk : k.output.capacity = .unlimited := congrArg Sink.capacity hunlimited
        rw [Sink.printAll_of_unlimited hk] at hwhole
        change ofProgram rest { scopes := k.scopes, output } =
          (ofProgram rest { scopes := k.scopes, output := k.output }).cutShort
            (output.printAll (Stmt.printingsOfAll rest k.scopes))
        rw [hrest, hwhole, cutShort_cutShort_none]

end

end Ending

/-- On a sink with limited room a program ends as on an unlimited one, if all that it prints fits. If not,
it stops at the `print` statement whose text has the first byte that does not fit: the sink holds the bytes
before, the error has the line of the statement and the cause that the sink gives, and the scopes are those
in which the value was known, less those of the blocks around. -/
theorem execute_on_limited_sink (program : List Stmt) (m : Machine) (room : Nat) (cause : String) :
    let whole := Ending.ofResult (execute program { m with output := {} })
    let cut := Ending.ofResult (execute program { m with output := { capacity := .limited room cause } })
    let printed := Stmt.printingsOfAll program m.scopes
    whole.output.content = Printing.lines printed ∧
      (whole.output.content.size ≤ room →
        cut.error = whole.error ∧ cut.scopes = whole.scopes ∧ cut.output.content = whole.output.content) ∧
      (room < whole.output.content.size →
        cut.output.content = whole.output.content.extract 0 room ∧
        ∃ before p after, printed = before ++ p :: after ∧
          (Printing.lines before).size ≤ room ∧ room < (Printing.lines (before ++ [p])).size ∧
          cut.error = some ⟨p.line, .output cause⟩ ∧ cut.scopes = p.scopes) := by
  intro whole cut printed
  have hwhole : whole = _ := (Ending.ofResult_execute program _).trans (Ending.ofProgram_eq_cutShort program _)
  have hcut : cut = _ := (Ending.ofResult_execute program _).trans (Ending.ofProgram_eq_cutShort program _)
  rw [Sink.printAll_of_unlimited rfl] at hwhole
  have hcontent : whole.output.content = Printing.lines printed := by
    rw [hwhole]
    exact ByteArray.empty_append
  refine ⟨hcontent, fun hle => ?_, fun hlt => ?_⟩
  · rw [hcontent] at hle
    rw [Sink.printAll_of_le rfl hle, Sink.write_of_limited rfl] at hcut
    refine ⟨?_, ?_, ?_⟩
    · rw [hcut, hwhole]
      rfl
    · rw [hcut, hwhole]
      rfl
    · rw [hcut, hcontent]
      change ByteArray.empty ++ (Printing.lines printed).extract 0 room = _
      rw [ByteArray.empty_append, ← Nat.max_eq_left hle, ByteArray.extract_zero_max_size]
  · rw [hcontent] at hlt ⊢
    have hcapacity : ({ capacity := .limited room cause } : Sink).capacity = .limited room cause := rfl
    obtain ⟨before, p, after, hprinted, hbefore, hp, hkept, hstop⟩ := Sink.printAll_of_lt hcapacity hlt
    rw [hcut, ← Prod.eta (Sink.printAll _ _), hstop]
    refine ⟨?_, before, p, after, hprinted, hbefore, hp, rfl, rfl⟩
    exact hkept.trans ByteArray.empty_append

end BlockScript
