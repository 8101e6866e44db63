import BlockScript.Proofs.Endings
import BlockScript.Proofs.LineShift
import BlockScript.Proofs.Rereading

/-!
# Scripts of several units

Accepted units that are put together line by line are an accepted script, whose statements are those of
the units, each moved down by the lines before it. Running the script does what running its units in one
session does, up to the first runtime error.
-/
namespace BlockScript
open Grammar

/-- The units with a line break after each but the last. -/
def script (units : List String) : String := "\n".intercalate units

/-- The number of line breaks in a script before the unit at the given index. -/
def linesBefore (units : List String) (k : Nat) : UInt32 :=
  Piece.newlines ((units.take k).flatMap fun unit => unit.toList ++ ['\n'])

@[simp] theorem linesBefore_zero (units : List String) : linesBefore units 0 = 0 := rfl

theorem linesBefore_cons_succ (unit : String) (units : List String) (k : Nat) :
    linesBefore (unit :: units) (k + 1) = Piece.newlines unit.toList + 1 + linesBefore units k := by
  simp only [linesBefore, List.take_succ_cons, List.flatMap_cons, Piece.newlines_append]
  rfl

/-! ### Reading -/

namespace IsProgram
variable {line : UInt32} {cs : List Char} {program : List Stmt}

theorem nil (line : UInt32) : IsProgram line [] [] := by
  rw [IsProgram, Piece.pieces_nil]
  exact ⟨rfl, [], rfl, trivial, trivial, rfl⟩

theorem shift (h : IsProgram line cs program) (d : UInt32) :
    IsProgram (line + d) cs (Stmt.relabelAll (.shift d) program) := by
  obtain ⟨herrors, ds, htokens, hg, ha, rfl⟩ := h
  refine ⟨?_, Declaration.shiftAll d ds, ?_, Declaration.guardedAll_shift ds hg,
    Declaration.allAssignNames_shift ds ha, Declaration.statementsOfAll_shift ds⟩
  · rw [List.filterMap_eq_nil_iff] at herrors ⊢
    rw [Piece.pieces_shift]
    intro p hp
    obtain ⟨q, hq, rfl⟩ := List.mem_map.1 hp
    exact (Piece.error?_eq_none_shift d q).2 (herrors q hq)
  · rw [Declaration.tokensOfAll_shift, htokens, Piece.pieces_shift, List.filterMap_map,
      List.map_filterMap]
    exact congrArg (List.filterMap · _) (funext fun p => (Piece.token?_shift d p).symm)

/-- A line break ends whatever stands before it. -/
theorem pieces_newline (h : IsProgram line cs program) (rest : List Char) :
    ∃ gap : Piece, gap.token? = none ∧ gap.error? = none ∧
      Piece.pieces line (cs ++ '\n' :: rest) =
        Piece.pieces line cs ++ gap :: Piece.pieces (line + Piece.newlines cs + 1) rest := by
  have hseparates : Piece.Separates ('\n' :: rest) := by
    intro c hc
    obtain rfl : '\n' = c := by simpa using hc
    decide
  have hopen : ∀ p ∈ Piece.pieces line cs, p.role ≠ .openString := by
    intro p hp hrole
    have hnone := List.filterMap_eq_nil_iff.1 h.1 p hp
    simp [Piece.error?, Piece.complaint?, hrole] at hnone
  have hbreak : Piece.extent '\n' ([] ++ rest) = (.gap, 0) := rfl
  refine ⟨⟨.gap, ['\n'], line + Piece.newlines cs + 1⟩, rfl, rfl, ?_⟩
  rw [Piece.pieces_append hseparates hopen fun _ c hc => by simpa using hc.symm]
  exact congrArg _ (Piece.pieces_of_extent hbreak)

theorem append (h : IsProgram line cs program) {rest : List Char} {program' : List Stmt}
    (h' : IsProgram (line + Piece.newlines cs + 1) rest program') :
    IsProgram line (cs ++ '\n' :: rest) (program ++ program') := by
  obtain ⟨gap, htoken, herror, hpieces⟩ := h.pieces_newline rest
  obtain ⟨herrors, ds, htokens, hg, ha, rfl⟩ := h
  obtain ⟨herrors', ds', htokens', hg', ha', rfl⟩ := h'
  refine ⟨?_, ds ++ ds', ?_, (Declaration.guardedAll_append ds ds').2 ⟨hg, hg'⟩,
    (Declaration.allAssignNames_append ds ds').2 ⟨ha, ha'⟩, Declaration.statementsOfAll_append ds ds'⟩
  · rw [hpieces, List.filterMap_append, herrors, List.filterMap_cons_none herror, herrors']
    rfl
  · rw [hpieces, List.filterMap_append, List.filterMap_cons_none htoken, Declaration.tokensOfAll_append,
      htokens, htokens']

end IsProgram

/-- The statements of a script that begins after some lines. -/
def joined (d : UInt32) (units : List String) (programs : List (List Stmt)) : List Stmt :=
  (programs.mapIdx fun k program => Stmt.relabelAll (.shift (d + linesBefore units k)) program).flatten

theorem joined_cons (d : UInt32) (unit : String) (units : List String) (program : List Stmt)
    (programs : List (List Stmt)) :
    joined d (unit :: units) (program :: programs) =
      Stmt.relabelAll (.shift d) program ++
        joined (d + (Piece.newlines unit.toList + 1)) units programs := by
  rw [joined, List.mapIdx_cons, List.flatten_cons, linesBefore_zero, UInt32.add_zero, joined]
  simp only [linesBefore_cons_succ, UInt32.add_assoc]

theorem script_isProgram {units : List String} {programs : List (List Stmt)}
    (h : units.map readProgram = programs.map .ok) (d : UInt32) :
    IsProgram (1 + d) (script units).toList (joined d units programs) := by
  induction units generalizing programs d with
  | nil =>
    obtain rfl : programs = [] := by simpa using h.symm
    exact .nil _
  | cons unit units ih =>
    cases programs with
    | nil => simp at h
    | cons program programs =>
      simp only [List.map_cons, List.cons.injEq] at h
      have hunit := ((readProgram_eq_ok_iff unit program).1 h.1).shift d
      rw [joined_cons]
      cases units with
      | nil =>
        obtain rfl : programs = [] := by simpa using h.2.symm
        rw [script, String.intercalate_singleton, joined, List.mapIdx_nil, List.flatten_nil,
          List.append_nil]
        exact hunit
      | cons next units =>
        have hrest := ih h.2 (d + (Piece.newlines unit.toList + 1))
        have htext : (script (unit :: next :: units)).toList =
            unit.toList ++ '\n' :: (script (next :: units)).toList := by
          rw [script, String.intercalate_cons_cons]
          simp [script]
        rw [htext]
        refine hunit.append ?_
        have hline : 1 + d + Piece.newlines unit.toList + 1 =
            1 + (d + (Piece.newlines unit.toList + 1)) := by ac_rfl
        rw [hline]
        exact hrest

/-! ### Running -/

/-- Runs units in order up to the first that has a runtime error. The first part is the index of that unit
and its error. -/
def Session.runUnits (s : Session) : List String → Option (Nat × RuntimeError) × Session
  | [] => (none, s)
  | unit :: units =>
    match s.runtimeError? unit with
    | some error => (some (0, error), (s.run unit).2)
    | none =>
      let (stop, s) := (s.run unit).2.runUnits units
      (stop.map fun (k, error) => (k + 1, error), s)

/-- The ending of units that were run in order, when the script of them begins after some lines. -/
def Ending.ofUnits (d : UInt32) (units : List String) (result : Option (Nat × RuntimeError) × Session) :
    Ending where
  error := result.1.map fun (k, error) => error.relabel (.shift (d + linesBefore units k))
  scopes := result.2.machine.scopes
  output := result.2.machine.output

theorem Ending.ofProgram_shift (program : List Stmt) {m m' : Machine} (hm : m.Related Eq m')
    (d : UInt32) :
    ofProgram (Stmt.relabelAll (.shift d) program) m' = (ofProgram program m).relabel (.shift d) :=
  ofResult_of_follows ((simulates_shift d).execAll (n := 0) program (fun _ _ => trivial) hm)

theorem Ending.ofUnits_cons (d : UInt32) (unit : String) (units : List String)
    (result : Option (Nat × RuntimeError) × Session) :
    ofUnits d (unit :: units) (result.1.map fun (k, error) => (k + 1, error), result.2) =
      ofUnits (d + (Piece.newlines unit.toList + 1)) units result := by
  obtain ⟨stop, s⟩ := result
  cases stop with
  | none => rfl
  | some stop => simp only [ofUnits, Option.map_some, linesBefore_cons_succ, UInt32.add_assoc]

theorem Ending.ofProgram_joined {units : List String} {programs : List (List Stmt)}
    (h : units.map readProgram = programs.map .ok) (d : UInt32) {s : Session} {m : Machine}
    (hm : s.machine.Related Eq m) :
    ofProgram (joined d units programs) m = ofUnits d units (s.runUnits units) := by
  induction units generalizing programs d s m with
  | nil =>
    obtain rfl : programs = [] := by simpa using h.symm
    rw [joined, List.mapIdx_nil, List.flatten_nil, ofProgram, Stmt.execAll]
    change Ending.mk none m.scopes m.output = Ending.mk none s.machine.scopes s.machine.output
    rw [hm.scopes, hm.output]
  | cons unit units ih =>
    cases programs with
    | nil => simp at h
    | cons program programs =>
      simp only [List.map_cons, List.cons.injEq] at h
      obtain ⟨hrun, -⟩ := Session.ending_run (s := s) h.1
      have hfirst := ofProgram_shift program hm d
      rw [← hrun] at hfirst
      rw [joined_cons, ofProgram_append, hfirst, Session.ending, relabel, Session.runUnits]
      cases hstop : s.runtimeError? unit with
      | some error =>
        simp [ofUnits, linesBefore_zero]
      | none =>
        have hrest := ih h.2 (d + (Piece.newlines unit.toList + 1)) (s := (s.run unit).2)
          (m := { scopes := (s.run unit).2.machine.scopes, output := (s.run unit).2.machine.output })
          ⟨rfl, rfl⟩
        exact hrest.trans (ofUnits_cons d unit units _).symm

/-- The script of units runs as the units do one after the other in a session: it is accepted, its
statements are theirs on lines further down, and it ends as they do at the first runtime error. -/
theorem run_script {units : List String} {programs : List (List Stmt)}
    (h : units.map readProgram = programs.map .ok) :
    readProgram (script units) =
        .ok (programs.mapIdx fun k program =>
          Stmt.relabelAll (.shift (linesBefore units k)) program).flatten ∧
      ∀ s : Session,
        (s.run (script units)).2.machine.output = (s.runUnits units).2.machine.output ∧
        (s.run (script units)).2.machine.scopes = (s.runUnits units).2.machine.scopes ∧
        s.runtimeError? (script units) =
          (s.runUnits units).1.map (fun (k, error) => error.relabel (.shift (linesBefore units k))) ∧
        (s.run (script units)).1 = { hadRuntimeError := (s.runUnits units).1.isSome } := by
  have hread : readProgram (script units) = .ok (joined 0 units programs) := by
    rw [readProgram_eq_ok_iff]
    exact script_isProgram h 0
  have hjoined : joined 0 units programs =
      (programs.mapIdx fun k program =>
        Stmt.relabelAll (.shift (linesBefore units k)) program).flatten := by
    simp only [joined, UInt32.zero_add]
  refine ⟨hjoined ▸ hread, fun s => ?_⟩
  obtain ⟨hending, hstatus⟩ := Session.ending_run (s := s) hread
  have hsame : s.machine.Related Eq s.machine := ⟨rfl, rfl⟩
  rw [Ending.ofProgram_joined h 0 hsame] at hending hstatus
  refine ⟨congrArg Ending.output hending, congrArg Ending.scopes hending, ?_, ?_⟩
  · have herror : s.runtimeError? (script units) = _ := congrArg Ending.error hending
    simpa only [Ending.ofUnits, UInt32.zero_add] using herror
  · rw [hstatus, Ending.ofUnits, Option.isSome_map]

/-- In a script of `!true;` and `-nil;` the second unit fails, on the second line. -/
theorem run_script_negations :
    let negation := Expr.unary .not 1 (.literal (.bool true))
    let fault := Expr.unary .negate 1 (.literal .nil)
    let units := [negation.source ++ ";", fault.source ++ ";"]
    readProgram (script units) = .ok [.expr negation, .expr (.unary .negate 2 (.literal .nil))] ∧
      ∀ s : Session, s.runtimeError? (script units) = some ⟨2, .numberOperand .negate⟩ := by
  intro negation fault units
  have hnegation : readProgram (negation.source ++ ";") = .ok [.expr negation] := by
    have hshape : negation.WellShaped := ⟨rfl, trivial⟩
    obtain ⟨e, hread, -, hexact⟩ := hshape.readsBack
    rw [hread, hexact ⟨rfl, fun s hs => by cases hs⟩]
  have hfault : readProgram (fault.source ++ ";") = .ok [.expr fault] := by
    have hshape : fault.WellShaped := ⟨rfl, trivial⟩
    obtain ⟨e, hread, -, hexact⟩ := hshape.readsBack
    rw [hread, hexact ⟨rfl, fun s hs => by cases hs⟩]
  have hunits : units.map readProgram = [[.expr negation], [.expr fault]].map .ok := by
    simp only [units, List.map_cons, List.map_nil, hnegation, hfault]
  have hlines : linesBefore units 1 = 1 := by decide
  obtain ⟨hread, hrun⟩ := run_script hunits
  constructor
  · rw [hread]
    simp only [List.mapIdx_cons, List.mapIdx_nil, linesBefore_zero, Nat.zero_add, hlines]
    rfl
  · intro s
    have hfirst : s.runtimeError? (negation.source ++ ";") = none := Session.runtimeError?_eq hnegation
    have hsecond : (s.run (negation.source ++ ";")).2.runtimeError? (fault.source ++ ";") =
        some ⟨1, .numberOperand .negate⟩ := Session.runtimeError?_eq hfault
    rw [(hrun s).2.2.1]
    simp only [units, Session.runUnits, hfirst, hsecond, Option.map_some, Nat.zero_add]
    change some (RuntimeError.relabel (.shift (linesBefore units 1)) _) = _
    rw [hlines]
    rfl

end BlockScript
