import BlockScript.Proofs.FreshStarts
import BlockScript.Proofs.Recovery

/-!
# Guarded names

While an initializer is read, the declared name is guarded. The guarded names can be kept as a set beside
the state (`guardAt`), which gets the name at the `=` and loses it again when the declaration ends or is
given up. The set is the name whose initializer the position is in (`InInitializer`), if there is one.
-/
namespace BlockScript
namespace ParseState

/-! ### The set of guarded names -/

/-- Whether the name is the one whose initializer is being read. -/
def Mode.defines (mode : Mode) (name : String) : Bool :=
  match mode.goal? with
  | some goal => goal.defines name
  | none => false

/-- The names that must not be read next. -/
def Mode.guarded (mode : Mode) : Set String := {name | mode.defines name = true}

/-- The set of guarded names in the next state: the declared name is added where its initializer begins and
removed where the declaration ends, and when a declaration is given up, all are removed. -/
def nextGuard (s s' : ParseState) (guard : Set String) : Set String :=
  if s.fatal.length < s'.fatal.length then ∅
  else
    match s.mode, s'.mode with
    | .afterName name, .operand _ _ => insert name.lexeme guard
    | .operator (.initializer name) _ _, .ready => guard \ {name.lexeme}
    | _, _ => guard

section Guard
variable {s s' : ParseState} {t : Token} {guard : Set String} {mode : Mode}

theorem Mode.defines_of_goal? {goal : Goal} (h : mode.goal? = some goal) : mode.defines = goal.defines := by
  funext name
  rw [Mode.defines, h]

theorem Mode.guarded_of_goal?_eq_none (h : mode.goal? = none) : mode.guarded = ∅ := by
  ext name
  simp [guarded, defines, h]

theorem Mode.guarded_of_initializer {name : Token} (h : mode.goal? = some (.initializer name)) :
    mode.guarded = {name.lexeme} := by
  ext x
  change mode.defines x = true ↔ x = name.lexeme
  rw [defines_of_goal? h, Goal.defines, beq_iff_eq, eq_comm]

theorem Mode.guarded_of_not_defines {goal : Goal} (h : mode.goal? = some goal)
    (hgoal : ∀ name, goal.defines name = false) : mode.guarded = ∅ := by
  ext x
  simp [guarded, defines_of_goal? h, hgoal]

theorem Mode.exists_of_mem_guarded {x : String} (h : x ∈ mode.guarded) :
    ∃ name, mode.goal? = some (.initializer name) ∧ name.lexeme = x := by
  have h : mode.defines x = true := h
  unfold defines Goal.defines at h
  split at h
  · next goal hgoal =>
    split at h
    · next name => exact ⟨name, hgoal, by simpa using h⟩
    · cases h
  · cases h

theorem StartsDeclaration.goal?_eq_none (h : s.StartsDeclaration t) : s.mode.goal? = none := by
  rcases h with hm | ⟨hm, -⟩
  · rw [hm]
    rfl
  · rw [hm]
    rfl

theorem nextGuard_of_fatal {f : Fault} (h : s'.fatal = f :: s.fatal) : nextGuard s s' guard = ∅ := by
  refine if_pos ?_
  rw [h]
  exact Nat.lt_succ_self _

theorem nextGuard_of_fatal_eq (h : s'.fatal = s.fatal) :
    nextGuard s s' guard =
      match s.mode, s'.mode with
      | .afterName name, .operand _ _ => insert name.lexeme guard
      | .operator (.initializer name) _ _, .ready => guard \ {name.lexeme}
      | _, _ => guard := by
  rw [nextGuard, h, if_neg (Nat.lt_irrefl _)]

/-- Where nothing is fatal, the set changes only when an initializer begins or ends. -/
theorem nextGuard_eq_self (hfatal : s'.fatal = s.fatal)
    (hbegin : ∀ name goal stack, s.mode = .afterName name → s'.mode ≠ .operand goal stack)
    (hend : ∀ name stack e, s.mode = .operator (.initializer name) stack e → s'.mode ≠ .ready) :
    nextGuard s s' guard = guard := by
  rw [nextGuard_of_fatal_eq hfatal]
  split
  · next name goal stack hm hm' => exact absurd hm' (hbegin name goal stack hm)
  · next name stack e hm hm' => exact absurd hm' (hend name stack e hm)
  · rfl

theorem StartsDeclaration.nextGuard (h : s.StartsDeclaration t) (hfatal : s'.fatal = s.fatal)
    (hguarded : s'.mode.guarded = ∅) : nextGuard s s' s.mode.guarded = s'.mode.guarded := by
  have hgoal := h.goal?_eq_none
  rw [hguarded, Mode.guarded_of_goal?_eq_none hgoal]
  refine nextGuard_eq_self hfatal (fun name _ _ hm => ?_) (fun name stack e hm => ?_)
  · rcases h with hm' | ⟨hm', -⟩
    · cases hm.symm.trans hm'
    · cases hm.symm.trans hm'
  · rw [hm] at hgoal
    cases hgoal

theorem goal?_eq_none_of_discards (h : s.discards t = true) : s.mode.goal? = none := by
  unfold discards at h
  cases hm : s.mode with
  | operand | operator =>
    rw [hm] at h
    cases h
  | ready | name | afterName | skipping | skippingNext => rfl

/-- The set holds the name whose initializer is being read, and no other. -/
theorem Course.nextGuard (h : Course s t s') : nextGuard s s' s.mode.guarded = s'.mode.guarded := by
  cases h with
  | keyword h hk => exact h.nextGuard rfl (Mode.guarded_of_goal?_eq_none rfl)
  | name hm hk =>
    refine (nextGuard_of_fatal_eq ?_).trans ?_
    · rfl
    · rw [hm]
      rfl
  | @equals name hm hk =>
    refine (nextGuard_of_fatal_eq ?_).trans ?_
    · rfl
    · rw [hm, Mode.guarded_of_goal?_eq_none rfl, Mode.guarded_of_initializer rfl]
      exact insert_empty_eq name.lexeme
  | starts h hgoal hmode => exact h.nextGuard rfl (Mode.guarded_of_not_defines hmode hgoal)
  | @goesOn goal hm mode hmode _ found hfound =>
    have hguarded : mode.guarded = s.mode.guarded := by
      rw [Mode.guarded, Mode.guarded, Mode.defines_of_goal? hm, Mode.defines_of_goal? hmode]
    rw [hguarded]
    refine nextGuard_eq_self (fatal_of_faults hfound rfl) (fun name _ _ hm' => ?_) (fun _ _ _ _ hm' => ?_)
    · rw [hm'] at hm
      cases hm
    · have hm' : mode = .ready := hm'
      rw [hm'] at hmode
      cases hmode
  | @ends goal stack left hm _ _ found hfound =>
    refine (nextGuard_of_fatal_eq (fatal_of_faults hfound rfl)).trans ?_
    rw [hm]
    cases goal with
    | effect | print => rfl
    | initializer name =>
      rw [Mode.guarded_of_initializer rfl]
      exact Set.sdiff_self.trans (Mode.guarded_of_goal?_eq_none rfl).symm
  | declares hm =>
    refine (nextGuard_of_fatal_eq ?_).trans ?_
    · rfl
    · rw [hm]
      rfl
  | opens h => exact h.nextGuard rfl (Mode.guarded_of_goal?_eq_none rfl)
  | closes h _ => exact h.nextGuard rfl (Mode.guarded_of_goal?_eq_none rfl)
  | selfReference _ _ _ => exact (nextGuard_of_fatal rfl).trans (Mode.guarded_of_goal?_eq_none rfl).symm
  | fails found hfound hc =>
    rw [Mode.guarded_of_goal?_eq_none (goal?_fail _ t _)]
    exact nextGuard_of_fatal (fatal_fail hfound hc)
  | discarded h =>
    have hgoal := goal?_eq_none_of_discards h
    have hm : ∀ name, s.mode ≠ .afterName name := by
      intro name hm
      simp [discards, hm] at h
    rw [Mode.guarded_of_goal?_eq_none (goal?_skip s t), Mode.guarded_of_goal?_eq_none hgoal]
    refine nextGuard_eq_self rfl (fun name _ _ hm' => absurd hm' (hm name)) (fun _ _ _ hm' => ?_)
    rw [hm'] at hgoal
    cases hgoal

end Guard

/-! ### Initializers -/

/-- How the mode after a token of a declaration has come about. -/
def Origin (s : ParseState) (t : Token) : Mode → Prop
  | .name => s.StartsDeclaration t ∧ t.kind = .varKw
  | .afterName name => s.mode = .name ∧ name.kind = .identifier ∧ name = t
  | .operand goal _ | .operator goal _ _ =>
    s.mode.goal? = some goal ∨
      (∃ name, s.mode = .afterName name ∧ t.kind = .equal ∧ goal = .initializer name) ∨
        ∀ name, goal.defines name = false
  | .ready | .skipping | .skippingNext => True

section Initializers
variable {s s' : ParseState} {t : Token} {goal : Goal}

theorem origin_of_goal? {mode : Mode} (h : mode.goal? = some goal) :
    Origin s t mode ↔ s.mode.goal? = some goal ∨
      (∃ name, s.mode = .afterName name ∧ t.kind = .equal ∧ goal = .initializer name) ∨
        ∀ name, goal.defines name = false := by
  cases mode with
  | operand | operator =>
    cases h
    exact Iff.rfl
  | ready | name | afterName | skipping | skippingNext => cases h

theorem Course.origin (h : Course s t s') : Origin s t s'.mode := by
  cases h with
  | keyword h hk => exact ⟨h, hk⟩
  | name hm hk => exact ⟨hm, hk, rfl⟩
  | equals hm hk => exact .inr (.inl ⟨_, hm, hk, rfl⟩)
  | starts _ hgoal hmode => exact (origin_of_goal? hmode).2 (.inr (.inr hgoal))
  | goesOn hm hmode => exact (origin_of_goal? hmode).2 (.inl hm)
  | ends | declares | opens | closes | selfReference => trivial
  | fails | discarded =>
    dsimp only [fail, skip]
    split <;> trivial

/-- While an expression is read, its purpose stays the same, and so do all statements. -/
theorem Course.of_goal? (h : Course s t s') (hm : s.mode.goal? = some goal) (hm' : s'.mode.goal? ≠ none) :
    ∃ mode found, mode.goal? = some goal ∧ (∀ f ∈ found, f.complaint = .invalidTarget) ∧
      s' = { s with mode, faults := found ++ s.faults } := by
  cases h with
  | keyword h | starts h | opens h | closes h =>
    rw [h.goal?_eq_none] at hm
    cases hm
  | name h | equals h | declares h =>
    rw [h] at hm
    cases hm
  | @goesOn goal' hgoal mode hmode _ found hfound =>
    rw [hm] at hgoal
    cases hgoal
    exact ⟨mode, found, hmode, hfound, rfl⟩
  | ends | selfReference => exact absurd rfl hm'
  | fails => exact absurd (goal?_fail _ t _) hm'
  | discarded => exact absurd (goal?_skip s t) hm'

theorem feed_initializer {keyword name equals : Token} (h : s.StartsDeclaration keyword)
    (hkeyword : keyword.kind = .varKw) (hname : name.kind = .identifier) (hequals : equals.kind = .equal) :
    ((s.feed keyword).feed name).feed equals =
      { s with position := s.position + 3, mode := .operand (.initializer name) [] } := by
  have hbegin : s.begin keyword = { s with mode := .name } := by rw [begin, hkeyword]
  rw [feed_of_accept ((accept_of_startsDeclaration h).trans hbegin)]
  simp [feed, accept, hname, hequals]

end Initializers

end ParseState

namespace Parsed
open ParseState

/-! ### Positions in initializers -/

section Positions
variable {tokens : List Token} {start n : Nat} {name t : Token}

theorem stateAt_succ (h : (input tokens)[n]? = some t) :
    stateAt tokens (n + 1) = (stateAt tokens n).feed t := by
  rw [stateAt, stateAt, List.take_add_one, h, List.foldl_append]
  rfl

theorem position_stateAt_of_le (h : n ≤ (input tokens).length) : (stateAt tokens n).position = n := by
  rw [position_stateAt, Nat.min_eq_left h]

theorem course_stateAt (h : (input tokens)[n]? = some t) :
    ∃ s', Course (stateAt tokens n) t s' ∧ stateAt tokens (n + 1) = { s' with position := n + 1 } := by
  refine ⟨_, course_accept _ t, ?_⟩
  have hle : n ≤ (input tokens).length := (List.getElem?_eq_some_iff.1 h).1.le
  rw [stateAt_succ h, feed, position_stateAt_of_le hle]

/-- The guarded names before the token at a position, kept as a set. -/
def guardAt (tokens : List Token) : Nat → Set String
  | 0 => ∅
  | n + 1 => nextGuard (stateAt tokens n) (stateAt tokens (n + 1)) (guardAt tokens n)

theorem guardAt_eq (tokens : List Token) (h : n ≤ (input tokens).length) :
    guardAt tokens n = (stateAt tokens n).mode.guarded := by
  induction n with
  | zero => exact (Mode.guarded_of_goal?_eq_none rfl).symm
  | succ n ih =>
    obtain ⟨s', hcourse, hstate⟩ := course_stateAt (List.getElem?_eq_getElem h)
    rw [guardAt, ih (Nat.le_of_succ_le h), hstate]
    exact hcourse.nextGuard

/-- Whether `var`, the name and `=` begin a declaration that starts at the position. -/
structure OpensInitializer (tokens : List Token) (start : Nat) (name : Token) : Prop where
  keyword : ∃ t, (input tokens)[start]? = some t ∧ t.kind = .varKw ∧
    (stateAt tokens start).StartsDeclaration t
  name : (input tokens)[start + 1]? = some name ∧ name.kind = .identifier
  equals : ∃ t, (input tokens)[start + 2]? = some t ∧ t.kind = .equal

theorem OpensInitializer.stateAt (h : OpensInitializer tokens start name) :
    stateAt tokens (start + 3) =
      { stateAt tokens start with position := start + 3, mode := .operand (.initializer name) [] } := by
  obtain ⟨⟨keyword, hkeyword, hvar, hstarts⟩, ⟨hname, hidentifier⟩, ⟨equals, hequals, hequal⟩⟩ := h
  have hstart : start ≤ (input tokens).length := (List.getElem?_eq_some_iff.1 hkeyword).1.le
  rw [stateAt_succ hequals, stateAt_succ hname, stateAt_succ hkeyword,
    feed_initializer hstarts hvar hidentifier hequal, position_stateAt_of_le hstart]

/-- Whether the position is in the initializer of the name declared at `start`: an expression has been read
ever since the `=` there. -/
structure InInitializer (tokens : List Token) (start : Nat) (name : Token) (n : Nat) : Prop
    extends OpensInitializer tokens start name where
  le : start + 3 ≤ n
  le_length : n ≤ (input tokens).length
  reading : ∀ i, start + 3 ≤ i → i ≤ n → (stateAt tokens i).mode.goal? ≠ none

theorem OpensInitializer.inInitializer (h : OpensInitializer tokens start name) :
    InInitializer tokens start name (start + 3) := by
  obtain ⟨equals, hequals, -⟩ := h.equals
  refine ⟨h, Nat.le_refl _, (List.getElem?_eq_some_iff.1 hequals).1, fun i hi hin => ?_⟩
  obtain rfl : i = start + 3 := Nat.le_antisymm hin hi
  rw [h.stateAt]
  simp [Mode.goal?]

/-- All that the initializer has changed so far is what is being read, and the assignments found at fault. -/
theorem InInitializer.state (h : InInitializer tokens start name n) :
    ∃ mode found, mode.goal? = some (.initializer name) ∧ (∀ f ∈ found, f.complaint = .invalidTarget) ∧
      stateAt tokens n =
        { stateAt tokens start with
          position := n, mode, faults := found ++ (stateAt tokens start).faults } := by
  obtain ⟨hopens, hle, hlength, hreading⟩ := h
  induction n, hle using Nat.le_induction with
  | base =>
    refine ⟨.operand (.initializer name) [], [], rfl, by simp, ?_⟩
    rw [hopens.stateAt]
    rfl
  | succ n hle ih =>
    have hlt : n < (input tokens).length := hlength
    obtain ⟨mode, found, hgoal, hfound, hstate⟩ :=
      ih hlt.le fun i hi hin => hreading i hi (Nat.le_succ_of_le hin)
    obtain ⟨s', hcourse, hnext⟩ := course_stateAt (List.getElem?_eq_getElem hlt)
    have hgoal' : (stateAt tokens n).mode.goal? = some (.initializer name) := by
      rw [hstate]
      exact hgoal
    have hreads : s'.mode.goal? ≠ none := by
      have hr := hreading (n + 1) (Nat.le_succ_of_le hle) (Nat.le_refl _)
      rwa [hnext] at hr
    obtain ⟨mode', found', hmode', hfound', rfl⟩ := hcourse.of_goal? hgoal' hreads
    refine ⟨mode', found' ++ found, hmode', fun f hf => ?_, ?_⟩
    · exact (List.mem_append.1 hf).elim (hfound' f) (hfound f)
    · rw [hnext, hstate, List.append_assoc]

theorem InInitializer.goal? (h : InInitializer tokens start name n) :
    (stateAt tokens n).mode.goal? = some (.initializer name) := by
  obtain ⟨mode, found, hgoal, -, hstate⟩ := h.state
  rw [hstate]
  exact hgoal

theorem exists_of_mode_name (hn : n ≤ (input tokens).length) (h : (stateAt tokens n).mode = .name) :
    ∃ start, n = start + 1 ∧ ∃ t, (input tokens)[start]? = some t ∧ t.kind = .varKw ∧
      (stateAt tokens start).StartsDeclaration t := by
  cases n with
  | zero => cases h
  | succ start =>
    have ht := List.getElem?_eq_getElem hn
    obtain ⟨s', hcourse, hstate⟩ := course_stateAt ht
    have horigin := hcourse.origin
    rw [hstate] at h
    rw [h] at horigin
    exact ⟨start, rfl, _, ht, horigin.2, horigin.1⟩

theorem exists_of_mode_afterName (hn : n ≤ (input tokens).length)
    (h : (stateAt tokens n).mode = .afterName name) :
    ∃ start, n = start + 2 ∧ ((input tokens)[start + 1]? = some name ∧ name.kind = .identifier) ∧
      ∃ t, (input tokens)[start]? = some t ∧ t.kind = .varKw ∧ (stateAt tokens start).StartsDeclaration t := by
  cases n with
  | zero => cases h
  | succ n =>
    have ht := List.getElem?_eq_getElem hn
    obtain ⟨s', hcourse, hstate⟩ := course_stateAt ht
    have horigin := hcourse.origin
    rw [hstate] at h
    rw [h] at horigin
    obtain ⟨hm, hk, hname⟩ := horigin
    obtain ⟨start, rfl, hkeyword⟩ := exists_of_mode_name (Nat.le_of_succ_le hn) hm
    exact ⟨start, rfl, ⟨ht.trans (congrArg some hname.symm), hk⟩, hkeyword⟩

/-- Only an initializer makes a name guarded. -/
theorem exists_inInitializer (hn : n ≤ (input tokens).length)
    (h : (stateAt tokens n).mode.goal? = some (.initializer name)) :
    ∃ start, InInitializer tokens start name n := by
  induction n with
  | zero => cases h
  | succ n ih =>
    have ht := List.getElem?_eq_getElem hn
    have hle := Nat.le_of_succ_le hn
    obtain ⟨s', hcourse, hstate⟩ := course_stateAt ht
    have hgoal : s'.mode.goal? = some (.initializer name) := by rwa [hstate] at h
    -- the last token was in the initializer already, or it was its `=`
    rcases (origin_of_goal? hgoal).1 hcourse.origin with hm | ⟨name', hm, hk, hname⟩ | hnone
    · obtain ⟨start, hin⟩ := ih hle hm
      refine ⟨start, hin.toOpensInitializer, Nat.le_succ_of_le hin.le, hn, fun i hi hin' => ?_⟩
      rcases Nat.le_succ_iff.1 hin' with hin' | rfl
      · exact hin.reading i hi hin'
      · rw [h]
        simp
    · cases hname
      obtain ⟨start, rfl, hnamed, hkeyword⟩ := exists_of_mode_afterName hle hm
      have hopens : OpensInitializer tokens start name := ⟨hkeyword, hnamed, _, ht, hk⟩
      exact ⟨start, hopens.inInitializer⟩
    · have hdefines := hnone name.lexeme
      simp [Goal.defines] at hdefines

theorem guardAt_of_startsDeclaration (ht : (input tokens)[n]? = some t)
    (h : (stateAt tokens n).StartsDeclaration t) : guardAt tokens n = ∅ := by
  rw [guardAt_eq tokens (List.getElem?_eq_some_iff.1 ht).1.le]
  exact Mode.guarded_of_goal?_eq_none h.goal?_eq_none

theorem InInitializer.guardAt (h : InInitializer tokens start name n) : guardAt tokens n = {name.lexeme} := by
  rw [guardAt_eq tokens h.le_length]
  exact Mode.guarded_of_initializer h.goal?

theorem exists_of_mem_guardAt (hn : n ≤ (input tokens).length) {x : String} (hx : x ∈ guardAt tokens n) :
    ∃ start name, InInitializer tokens start name n ∧ name.lexeme = x := by
  rw [guardAt_eq tokens hn] at hx
  obtain ⟨name, hgoal, rfl⟩ := Mode.exists_of_mem_guarded hx
  obtain ⟨start, hin⟩ := exists_inInitializer hn hgoal
  exact ⟨start, name, hin, rfl⟩

end Positions
end Parsed
end BlockScript
