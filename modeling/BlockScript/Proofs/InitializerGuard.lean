import BlockScript.Proofs.GuardedNames

/-!
# Names in their own initializers

A name is at fault where it is read as an operand in its own initializer (`ReadsItself`), and nowhere else.
What has been read so far is sound: no name is used where it is defined, and none will be when the
expression being read is finished.
-/
namespace BlockScript

theorem Complaint.text_eq_selfReference_iff (c : Complaint) (name : String) :
    c.text = (Complaint.selfReference name).text ↔ c = .selfReference name := by
  constructor
  · intro h
    cases c with
    | selfReference name' =>
      rw [text_selfReference, text_selfReference, String.append_left_inj, String.append_right_inj] at h
      rw [h]
    | _ =>
      have hfirst : "Can't read variable '".toList.head? = some 'C' := by decide
      have hhead := congrArg (fun text => text.toList.head?) h
      rw [text_selfReference, String.append_assoc, String.toList_append, List.head?_append, hfirst,
        Option.some_or] at hhead
      exact absurd hhead (by decide)
  · rintro rfl
    rfl

/-- Whether the name is not used in its own initializer. -/
def Stmt.AvoidsItself : Stmt → Prop
  | .declare name (some e) => ∀ used ∈ e.names, used.lexeme ≠ name.lexeme
  | _ => True

namespace ParseState

/-! ### Statements -/

/-- Nothing that has been read contains a name where it is defined. -/
structure Sound (s : ParseState) : Prop where
  names : ∀ n ∈ s.mode.names, s.mode.defines n.lexeme = false
  leaves : ∀ leaf ∈ s.leaves, leaf.AvoidsItself

theorem sound_initial : Sound {} := by
  refine ⟨fun n hn => ?_, fun leaf hleaf => ?_⟩
  · cases hn
  · cases hleaf

namespace Sound
variable {s s' : ParseState} {t : Token}

/-- Between expressions there is nothing to show of the mode. -/
theorem of_goal?_eq_none (h : Sound s) (hm : s'.mode.goal? = none) (hleaves : s'.leaves = s.leaves) :
    Sound s' := by
  refine ⟨fun n _ => ?_, ?_⟩
  · rw [Mode.defines, hm]
  · rw [hleaves]
    exact h.leaves

theorem emit (h : Sound s) (hm : s'.mode = .ready) {statement : Stmt}
    (hleaves : s'.leaves = s.leaves ++ [statement]) (hstatement : statement.AvoidsItself) : Sound s' := by
  refine ⟨fun n _ => ?_, ?_⟩
  · rw [hm]
    rfl
  · rw [hleaves]
    exact List.forall_mem_append.2 ⟨h.leaves, List.forall_mem_singleton.2 hstatement⟩

theorem finish {goal : Goal} {e : Expr} (he : ∀ n ∈ e.names, goal.defines n.lexeme = false) :
    (goal.finish e).leaves = [goal.finish e] ∧ (goal.finish e).AvoidsItself := by
  cases goal with
  | effect | print => exact ⟨rfl, trivial⟩
  | initializer name =>
    refine ⟨rfl, fun n hn hlexeme => ?_⟩
    have hdefines := he n hn
    simp [Goal.defines, hlexeme] at hdefines

/-- An expression takes in no name that it defines, so that it is sound when it ends. -/
theorem course (h : Sound s) (hcourse : Course s t s') : Sound s' := by
  cases hcourse with
  | keyword | name | selfReference => exact h.of_goal?_eq_none rfl rfl
  | equals hm => exact ⟨fun n hn => absurd hn List.not_mem_nil, h.leaves⟩
  | starts _ hgoal hmode =>
    refine ⟨fun n _ => ?_, h.leaves⟩
    rw [Mode.defines_of_goal? hmode, hgoal]
  | goesOn hm hmode hnames =>
    refine ⟨fun n hn => ?_, h.leaves⟩
    rw [Mode.defines_of_goal? hmode]
    rcases hnames n hn with hn | hn
    · rw [← Mode.defines_of_goal? hm, h.names n hn]
    · exact hn
  | @ends goal stack left hm e he found _ =>
    have hgoal : s.mode.goal? = some goal := by rw [hm]; rfl
    have hdefines : ∀ n ∈ e.names, goal.defines n.lexeme = false := by
      intro n hn
      rw [← Mode.defines_of_goal? hgoal, h.names n (he hn)]
    obtain ⟨hleaves, havoids⟩ := finish hdefines
    refine h.emit rfl ?_ havoids
    rw [leaves_emit, hleaves]
    rfl
  | declares hm => exact h.emit rfl (leaves_emit s _) trivial
  | opens => exact h.of_goal?_eq_none rfl (leaves_open s)
  | closes _ houter => exact h.of_goal?_eq_none rfl (leaves_close s houter)
  | fails => exact h.of_goal?_eq_none (goal?_fail _ t _) rfl
  | discarded => exact h.of_goal?_eq_none (goal?_skip s t) rfl

theorem foldl_feed (h : Sound s) (tokens : List Token) : Sound (tokens.foldl feed s) := by
  induction tokens generalizing s with
  | nil => exact h
  | cons t rest ih =>
    have hnext := h.course (course_accept s t)
    exact ih ⟨hnext.names, hnext.leaves⟩

end Sound

theorem leaves_statements (s : ParseState) : Stmt.leavesOfAll s.statements ⊆ s.leaves := by
  intro leaf hleaf
  refine List.mem_flatMap.2 ⟨(s.outer.getLast?).getD s.body, ?_, hleaf⟩
  have hlast : (s.outer.getLast?).getD s.body ∈ (s.body :: s.outer).getLast? := by
    rw [List.getLast?_cons]
    rfl
  exact List.mem_reverse.2 (List.mem_of_mem_getLast? hlast)

/-! ### Errors -/

/-- A name is at fault only as an operand of an expression that must not contain it. -/
theorem Course.of_mem_faults {s s' : ParseState} {t : Token} {f : Fault} {x : String} (h : Course s t s')
    (hf : f ∈ s'.faults) (hx : f.complaint = .selfReference x) :
    f ∈ s.faults ∨ f = ⟨s.position, t, .selfReference t.lexeme⟩ ∧ t.kind = .identifier ∧
      ∃ goal stack, s.mode = .operand goal stack ∧ goal.defines t.lexeme = true := by
  have hold {found : List Fault} (hfound : ∀ f ∈ found, f.complaint = .invalidTarget)
      (hf : f ∈ found ++ s.faults) : f ∈ s.faults := by
    refine (List.mem_append.1 hf).resolve_left fun hf => ?_
    cases (hfound f hf).symm.trans hx
  cases h with
  | keyword | name | equals | starts | declares | opens | closes | discarded => exact .inl hf
  | goesOn _ _ _ found hfound | ends _ _ found hfound => exact .inl (hold hfound hf)
  | selfReference hm hk hd =>
    rcases List.mem_cons.1 hf with rfl | hf
    · exact .inr ⟨rfl, hk, _, _, hm, hd⟩
    · exact .inl hf
  | fails found hfound hc =>
    rcases List.mem_cons.1 hf with rfl | hf
    · obtain rfl : _ = Complaint.selfReference x := hx
      cases hc
    · exact .inl (hold hfound hf)

end ParseState

namespace Parsed
open ParseState

section Errors
variable {tokens : List Token} {start n : Nat} {name t : Token}

/-- Whether the token at a position is a name that is read as an operand in its own initializer. -/
structure ReadsItself (tokens : List Token) (start : Nat) (name : Token) (n : Nat) (t : Token) : Prop where
  inInitializer : InInitializer tokens start name n
  getElem? : (input tokens)[n]? = some t
  kind : t.kind = .identifier
  lexeme : t.lexeme = name.lexeme
  operand : ∃ goal stack, (stateAt tokens n).mode = .operand goal stack

theorem ReadsItself.mode (h : ReadsItself tokens start name n t) :
    ∃ stack, (stateAt tokens n).mode = .operand (.initializer name) stack := by
  obtain ⟨goal, stack, hm⟩ := h.operand
  have hgoal := h.inInitializer.goal?
  rw [hm] at hgoal
  obtain rfl : goal = .initializer name := Option.some.inj hgoal
  exact ⟨stack, hm⟩

/-- The declaration is given up with the name to blame, and nothing of it is left. -/
theorem ReadsItself.stateAt_succ (h : ReadsItself tokens start name n t) :
    ∃ found, (∀ f ∈ found, f.complaint = .invalidTarget) ∧
      stateAt tokens (n + 1) =
        { stateAt tokens start with
          position := n + 1
          mode := .skippingNext
          faults := ⟨n, t, .selfReference t.lexeme⟩ :: (found ++ (stateAt tokens start).faults) } := by
  obtain ⟨mode, found, -, hfound, hstate⟩ := h.inInitializer.state
  obtain ⟨stack, hm⟩ := h.mode
  have hdefines : (Goal.initializer name).defines t.lexeme = true := by simp [Goal.defines, h.lexeme]
  refine ⟨found, hfound, ?_⟩
  rw [Parsed.stateAt_succ h.getElem?, feed, accept, hm]
  dsimp only
  rw [acceptOperand_selfReference h.kind hdefines, hstate]

theorem mem_faults_of_stateAt {f : Fault} (hf : f ∈ (stateAt tokens n).faults) :
    f ∈ (ofTokens tokens).faults := by
  have hsuffix := faults_foldl_feed ((input tokens).drop n) (stateAt tokens n)
  rw [stateAt, ← List.foldl_append, List.take_append_drop] at hsuffix
  have hfinal := hsuffix.mem hf
  change f ∈ faultsAtEnd _ _
  rw [faultsAtEnd, List.mem_append, List.mem_reverse]
  left
  split
  · exact hfinal
  · exact hfinal
  · exact hfinal
  · exact (faults_accept _ _).mem hfinal

theorem mem_faults_of_ofTokens {f : Fault} {x : String} (hf : f ∈ (ofTokens tokens).faults)
    (hx : f.complaint = .selfReference x) : f ∈ (stateAt tokens (input tokens).length).faults := by
  have hfinal : stateAt tokens (input tokens).length = (input tokens).foldl feed {} := by
    rw [stateAt, List.take_length]
  have hf : f ∈ ((input tokens).foldl feed {}).faultsAtEnd (endMarker tokens) := hf
  rw [← hfinal, faultsAtEnd, List.mem_append, List.mem_reverse] at hf
  rcases hf with hf | hf
  · have haccept : f ∈ ((stateAt tokens (input tokens).length).accept (endMarker tokens)).faults →
        f ∈ (stateAt tokens (input tokens).length).faults := by
      intro hf
      refine ((course_accept _ _).of_mem_faults hf hx).resolve_right ?_
      rintro ⟨-, hk, -⟩
      cases (kind_endMarker tokens).symm.trans hk
    split at hf
    · exact hf
    · exact hf
    · exact hf
    · exact haccept hf
  · obtain ⟨_, -, rfl⟩ := List.mem_map.1 hf
    cases hx

theorem ReadsItself.mem_faults (h : ReadsItself tokens start name n t) :
    ⟨n, t, .selfReference t.lexeme⟩ ∈ (ofTokens tokens).faults := by
  obtain ⟨found, -, hstate⟩ := h.stateAt_succ
  have hmem : ⟨n, t, .selfReference t.lexeme⟩ ∈ (stateAt tokens (n + 1)).faults := by
    rw [hstate]
    exact List.mem_cons_self
  exact mem_faults_of_stateAt hmem

/-- A name is only found at fault in its own initializer, and when it is read as an operand. -/
theorem readsItself_of_mem_faults {f : Fault} {x : String} (hn : n ≤ (input tokens).length)
    (hf : f ∈ (stateAt tokens n).faults) (hx : f.complaint = .selfReference x) :
    ∃ start name, ReadsItself tokens start name f.position f.token ∧ x = f.token.lexeme := by
  induction n with
  | zero => cases hf
  | succ n ih =>
    have ht := List.getElem?_eq_getElem hn
    have hle := Nat.le_of_succ_le hn
    obtain ⟨s', hcourse, hstate⟩ := course_stateAt ht
    rw [hstate] at hf
    rcases hcourse.of_mem_faults hf hx with hf | ⟨rfl, hk, goal, stack, hm, hdefines⟩
    · exact ih hle hf
    · cases hx
      have hgoal : (stateAt tokens n).mode.goal? = some goal := by rw [hm]; rfl
      have hguarded : (input tokens)[n].lexeme ∈ (stateAt tokens n).mode.guarded := by
        change (stateAt tokens n).mode.defines _ = true
        rw [Mode.defines_of_goal? hgoal, hdefines]
      obtain ⟨name, hname, hlexeme⟩ := Mode.exists_of_mem_guarded hguarded
      obtain ⟨start, hin⟩ := exists_inInitializer hle hname
      rw [position_stateAt_of_le hle]
      exact ⟨start, name, ⟨hin, ht, hk, hlexeme.symm, goal, stack, hm⟩, rfl⟩

end Errors

/-- Where a declaration starts, reading goes on as if only the open blocks had been read before. -/
theorem stateAt_add_of_startsDeclaration {tokens : List Token} {n : Nat} {t : Token}
    (ht : (input tokens)[n]? = some t) (h : (stateAt tokens n).StartsDeclaration t) (count : Nat) :
    let read := (((input tokens).drop n).take (count + 1)).foldl feed (fresh (stateAt tokens n).outer.length)
    let later := stateAt tokens (n + (count + 1))
    later.mode = read.mode.later n ∧ later.outer.length = read.outer.length ∧
      later.leaves = (stateAt tokens n).leaves ++ read.leaves ∧
      later.faults = read.faults.map (Fault.later n) ++ (stateAt tokens n).faults := by
  intro read later
  have hle : n ≤ (input tokens).length := (List.getElem?_eq_some_iff.1 ht).1.le
  have hrest : ((input tokens).drop n).take (count + 1) = t :: ((input tokens).drop (n + 1)).take count := by
    rw [List.drop_eq_getElem?_toList_append, ht]
    rfl
  have hread := foldl_feed_of_startsDeclaration h (((input tokens).drop (n + 1)).take count)
  have hlater : later = (((input tokens).drop n).take (count + 1)).foldl feed (stateAt tokens n) := by
    change stateAt tokens (n + (count + 1)) = _
    rw [stateAt, List.take_add, List.foldl_append]
    rfl
  rw [position_stateAt_of_le hle, ← hrest, ← hlater] at hread
  exact hread

/-- A name is at fault in its own initializer and nowhere else. The set of guarded names is empty where a
declaration starts, in blocks too, and outside of initializers; in an initializer it is the declared name.
So no initializer that is returned contains its own name, the error is reported just where a name is read as
an operand in its own initializer, and the declaration is then given up without a trace. What is read from
the start of a declaration on does not depend on the declarations before it, but for the number of open
blocks. -/
theorem initializer_guard (tokens : List Token) :
    (∀ start name, OpensInitializer tokens start name → InInitializer tokens start name (start + 3)) ∧
    (∀ n t, (input tokens)[n]? = some t → (stateAt tokens n).StartsDeclaration t → guardAt tokens n = ∅) ∧
    (∀ start name n, InInitializer tokens start name n → guardAt tokens n = {name.lexeme}) ∧
    (∀ n ≤ (input tokens).length, (∀ start name, ¬ InInitializer tokens start name n) → guardAt tokens n = ∅) ∧
    (∀ name e, Stmt.declare name (some e) ∈ Stmt.leavesOfAll (ofTokens tokens).statements →
      ∀ used ∈ e.names, used.lexeme ≠ name.lexeme) ∧
    (∀ f x, f ∈ (ofTokens tokens).faults ∧
        f.error.message = "Can't read variable '" ++ x ++ "' in its own initializer." ↔
      ∃ start name n t, ReadsItself tokens start name n t ∧ t.lexeme = x ∧ f = ⟨n, t, .selfReference x⟩) ∧
    (∀ start name n t, ReadsItself tokens start name n t →
      ∃ found, (∀ f ∈ found, f.complaint = .invalidTarget) ∧
        stateAt tokens (n + 1) =
          { stateAt tokens start with
            position := n + 1
            mode := .skippingNext
            faults := ⟨n, t, .selfReference t.lexeme⟩ :: (found ++ (stateAt tokens start).faults) }) ∧
    (∀ n t, (input tokens)[n]? = some t → (stateAt tokens n).StartsDeclaration t → ∀ count,
      let read := (((input tokens).drop n).take (count + 1)).foldl feed (fresh (stateAt tokens n).outer.length)
      let later := stateAt tokens (n + (count + 1))
      later.mode = read.mode.later n ∧ later.outer.length = read.outer.length ∧
        later.leaves = (stateAt tokens n).leaves ++ read.leaves ∧
        later.faults = read.faults.map (Fault.later n) ++ (stateAt tokens n).faults) := by
  refine ⟨fun start name h => h.inInitializer, fun n t => guardAt_of_startsDeclaration,
    fun start name n h => h.guardAt, fun n hn h => ?_, fun name e h => ?_, fun f x => ⟨?_, ?_⟩,
    fun start name n t h => h.stateAt_succ, fun n t ht h => stateAt_add_of_startsDeclaration ht h⟩
  · refine Set.eq_empty_of_forall_notMem fun x hx => ?_
    obtain ⟨start, name, hin, -⟩ := exists_of_mem_guardAt hn hx
    exact h start name hin
  · have hsound := sound_initial.foldl_feed (input tokens)
    exact hsound.leaves _ (leaves_statements _ h)
  · rintro ⟨hf, hmessage⟩
    have hcomplaint : f.complaint = .selfReference x := (Complaint.text_eq_selfReference_iff _ _).1 hmessage
    have hfinal := mem_faults_of_ofTokens hf hcomplaint
    obtain ⟨start, name, hreads, rfl⟩ := readsItself_of_mem_faults (Nat.le_refl _) hfinal hcomplaint
    refine ⟨start, name, f.position, f.token, hreads, rfl, ?_⟩
    rw [← hcomplaint]
  · rintro ⟨start, name, n, t, hreads, rfl, rfl⟩
    exact ⟨hreads.mem_faults, rfl⟩

/-- In `{ var a = a; var c = a; }` only the first use of `a` is at fault, also when `a` is declared before. -/
example :
    let a : Token := ⟨.identifier, "a", none, 1⟩
    let c : Token := ⟨.identifier, "c", none, 1⟩
    let block : List Token :=
      [.bare .leftBrace, .bare .varKw, a, .bare .equal, a, .bare .semicolon, .bare .varKw, c, .bare .equal, a,
        .bare .semicolon, .bare .rightBrace]
    let p := ofTokens ([.bare .varKw, a, .bare .semicolon] ++ block)
    p.statements = [.declare a none, .block [.declare c (some (.var a))]] ∧
      p.errors = [⟨1, .atLexeme "a", "Can't read variable 'a' in its own initializer."⟩] :=
  ⟨rfl, rfl⟩

end Parsed
end BlockScript
