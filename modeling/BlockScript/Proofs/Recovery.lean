import Mathlib.Order.Bounds.Basic
import BlockScript.Proofs.Blame

/-!
# Where reading goes on after an error

When a declaration is given up, tokens are thrown away up to the next place where a declaration may begin:
after a `;`, at a word that begins a statement, or at the end. The search for it begins behind the blamed
token. A name in its own initializer is the exception: the token after it is thrown away unseen, and may
have been the word at which the next statement begins.
-/
namespace BlockScript
namespace ParseState

/-- Throws tokens away, as long as the state does. -/
def resume (s : ParseState) : List Token → ParseState
  | [] => s
  | t :: rest => if s.discards t then (s.feed t).resume rest else s

section Resume
variable {s : ParseState} {t : Token}

theorem resume_of_not_isSkipping (h : s.mode.isSkipping = false) (rest : List Token) :
    s.resume rest = s := by
  cases rest with
  | nil => rfl
  | cons t rest =>
    rw [resume, discards_of_not_isSkipping h]
    rfl

theorem resume_cons (h : s.discards t = true) (rest : List Token) :
    s.resume (t :: rest) = (s.feed t).resume rest := by
  rw [resume, if_pos h]

theorem feed_of_discards (h : s.discards t = true) :
    s.feed t = { s.skip t with position := s.position + 1 } :=
  feed_of_accept (accept_of_discards h)

theorem mode_feed_of_discards (h : s.discards t = true) :
    (s.feed t).mode = if t.kind = .semicolon then .ready else .skipping := by
  rw [feed_of_discards h]
  rfl

/-- Nothing that was read is lost with the tokens that are thrown away. -/
theorem resume_eq (s : ParseState) (rest : List Token) :
    ∃ n mode, n ≤ rest.length ∧ s.resume rest = (rest.take n).foldl feed s ∧
      s.resume rest = s.advance n mode [] := by
  induction rest generalizing s with
  | nil => exact ⟨0, s.mode, Nat.le_refl 0, rfl, rfl⟩
  | cons t rest ih =>
    cases h : s.discards t with
    | false =>
      rw [resume, h]
      exact ⟨0, s.mode, Nat.zero_le _, rfl, rfl⟩
    | true =>
      obtain ⟨n, mode, hle, hfold, he⟩ := ih (s.feed t)
      refine ⟨n + 1, mode, Nat.succ_le_succ hle, ?_, ?_⟩
      · rw [resume_cons h, hfold]
        rfl
      · rw [resume_cons h, he, feed_of_discards h, advance, advance]
        simp [skip, Nat.add_comm, Nat.add_left_comm]

end Resume

/-! ### Boundaries -/

/-- Whether the position is right behind a `;`, or at a word that begins a statement. -/
def IsBoundary (tokens : List Token) (position : Nat) : Prop :=
  (∃ i t, position = i + 1 ∧ tokens[i]? = some t ∧ t.kind = .semicolon) ∨
    ∃ t, tokens[position]? = some t ∧ t.kind.beginsStatement = true

/-- The boundaries from a position on. The end of the input counts in any case. -/
def boundaries (tokens : List Token) (start : Nat) : Set Nat :=
  {j | j = tokens.length ∨ start ≤ j ∧ IsBoundary tokens j}

section Boundaries
variable {tokens : List Token} {start : Nat}

theorem boundaries_succ (h : ¬ IsBoundary tokens start) :
    boundaries tokens (start + 1) = boundaries tokens start := by
  ext j
  constructor
  · rintro (hj | ⟨hle, hj⟩)
    · exact .inl hj
    · exact .inr ⟨Nat.le_of_succ_le hle, hj⟩
  · rintro (hj | ⟨hle, hj⟩)
    · exact .inl hj
    · have hne : start ≠ j := by
        rintro rfl
        exact h hj
      exact .inr ⟨Nat.lt_of_le_of_ne hle hne, hj⟩

theorem isLeast_boundaries_start (hle : start ≤ tokens.length) (h : IsBoundary tokens start) :
    IsLeast (boundaries tokens start) start := by
  refine ⟨.inr ⟨Nat.le_refl _, h⟩, ?_⟩
  rintro j (rfl | ⟨hj, -⟩)
  · exact hle
  · exact hj

theorem isLeast_boundaries_length (h : tokens.length ≤ start) :
    IsLeast (boundaries tokens start) tokens.length := by
  refine ⟨.inl rfl, ?_⟩
  rintro j (rfl | ⟨hj, -⟩)
  · exact Nat.le_refl _
  · exact h.trans hj

end Boundaries

/-- The state is at the first boundary, and takes the token there as the first of a declaration. -/
structure ResumesFrom (tokens : List Token) (start : Nat) (s : ParseState) : Prop where
  isLeast : IsLeast (boundaries tokens start) s.position
  accept_eq : ∀ t, tokens[s.position]? = some t → s.accept t = s.begin t

section Resume
variable {before after : List Token} {t : Token} {s : ParseState}

theorem resumesFrom_of_semicolon (hp : s.position = before.length + 1) (hm : s.mode = .ready)
    (ht : t.kind = .semicolon) :
    ResumesFrom (before ++ t :: after) (before.length + 1) (s.resume after) := by
  rw [resume_of_not_isSkipping (by rw [hm]; rfl)]
  refine ⟨?_, fun t' _ => by rw [accept, hm]⟩
  rw [hp]
  have hle : before.length + 1 ≤ (before ++ t :: after).length := by
    rw [List.length_append, List.length_cons]
    omega
  exact isLeast_boundaries_start hle (.inl ⟨_, t, rfl, getElem?_append_cons_length before after t, ht⟩)

theorem resumesFrom_end (hp : s.position = before.length + 1) :
    ResumesFrom (before ++ [t]) (before.length + 1) (s.resume []) := by
  have hlength : s.position = (before ++ [t]).length := by rw [hp, List.length_append]; rfl
  refine ⟨?_, fun t' ht' => ?_⟩
  · rw [resume, hlength]
    exact isLeast_boundaries_length (by rw [← hlength, hp])
  · rw [resume, hlength, List.getElem?_eq_none (Nat.le_refl _)] at ht'
    cases ht'

theorem resumesFrom_of_beginsStatement {t' : Token} (hp : s.position = before.length + 1)
    (hm : s.mode = .skipping) (ht' : t'.kind.beginsStatement = true) :
    ResumesFrom (before ++ t :: t' :: after) (before.length + 1) (s.resume (t' :: after)) := by
  have hget : (before ++ t :: t' :: after)[before.length + 1]? = some t' := by
    have h := getElem?_append_cons_length (before ++ [t]) after t'
    rwa [List.append_assoc, List.length_append] at h
  have hresume : s.resume (t' :: after) = s := by simp [resume, discards, hm, ht']
  rw [hresume]
  refine ⟨?_, fun t'' ht'' => ?_⟩
  · rw [hp]
    have hle : before.length + 1 ≤ (before ++ t :: t' :: after).length := by
      rw [List.length_append, List.length_cons]
      omega
    exact isLeast_boundaries_start hle (.inr ⟨t', hget, ht'⟩)
  · rw [hp, hget, Option.some.injEq] at ht''
    subst ht''
    simp only [accept, hm, if_pos ht']

/-- When a token has been thrown away, those after it are thrown away up to the next boundary, which may
be right behind it. -/
theorem resumesFrom_resume (hp : s.position = before.length + 1)
    (hm : s.mode = if t.kind = .semicolon then .ready else .skipping) :
    ResumesFrom (before ++ t :: after) (before.length + 1) (s.resume after) := by
  induction after generalizing before t s with
  | nil => exact resumesFrom_end hp
  | cons t' after ih =>
    by_cases ht : t.kind = .semicolon
    · exact resumesFrom_of_semicolon hp (hm.trans (if_pos ht)) ht
    rw [if_neg ht] at hm
    by_cases hb : t'.kind.beginsStatement = true
    · exact resumesFrom_of_beginsStatement hp hm hb
    -- neither token makes a boundary of the place between them
    have hd : s.discards t' = true := by simp [discards, hm, hb]
    have htokens : before ++ t :: t' :: after = before ++ [t] ++ t' :: after := by simp
    have hlength : (before ++ [t]).length = before.length + 1 := List.length_append
    have hboundary : ¬ IsBoundary (before ++ [t] ++ t' :: after) (before.length + 1) := by
      rintro (⟨i, t'', hi, hget, hk⟩ | ⟨t'', hget, hk⟩)
      · obtain rfl : i = before.length := by omega
        rw [List.append_assoc, List.singleton_append, getElem?_append_cons_length,
          Option.some.injEq] at hget
        exact ht (hget ▸ hk)
      · rw [← hlength, getElem?_append_cons_length, Option.some.injEq] at hget
        exact hb (hget ▸ hk)
    have hposition : (s.feed t').position = (before ++ [t]).length + 1 := by
      rw [position_feed, hp, hlength]
    obtain ⟨hleast, haccept⟩ := ih hposition (mode_feed_of_discards hd)
    rw [hlength, boundaries_succ hboundary] at hleast
    rw [resume_cons hd, htokens]
    exact ⟨hleast, haccept⟩

/-- If the next token is thrown away whatever it is, the search begins behind it. -/
theorem resumesFrom_of_skippingNext (hp : s.position = before.length + 1) (hm : s.mode = .skippingNext) :
    ResumesFrom (before ++ t :: after) (before.length + 2) (s.resume after) := by
  have hlength : (before ++ [t]).length = before.length + 1 := List.length_append
  cases after with
  | nil =>
    obtain ⟨-, haccept⟩ := resumesFrom_end (t := t) hp
    refine ⟨?_, haccept⟩
    rw [resume, hp, ← hlength]
    exact isLeast_boundaries_length (by omega)
  | cons t' after =>
    have hd : s.discards t' = true := by simp [discards, hm]
    have hposition : (s.feed t').position = (before ++ [t]).length + 1 := by
      rw [position_feed, hp, hlength]
    have h : ResumesFrom (before ++ [t] ++ t' :: after) ((before ++ [t]).length + 1)
        ((s.feed t').resume after) := resumesFrom_resume hposition (mode_feed_of_discards hd)
    rw [hlength, List.append_assoc] at h
    rw [resume_cons hd]
    exact h

end Resume

end ParseState

/-! ### Faults -/

/-- The first position at which a new declaration is looked for after the fault. -/
def Fault.searchStart (f : Fault) : Nat :=
  match f.complaint with
  | .selfReference _ => f.position + 2
  | _ => f.position + 1

namespace Fault
variable {f : Fault}

theorem searchStart_of_isExpectation (h : f.complaint.isExpectation = true) :
    f.searchStart = f.position + 1 := by
  unfold searchStart
  split
  · next name hc =>
    rw [hc] at h
    cases h
  · rfl

theorem searchStart_of_selfReference {name : String} (h : f.complaint = .selfReference name) :
    f.searchStart = f.position + 2 := by
  rw [searchStart, h]

theorem position_lt_searchStart (f : Fault) : f.position < f.searchStart := by
  unfold searchStart
  split <;> omega

end Fault

namespace ParseState

/-- How a fault leaves the declaration: only a name in its own initializer keeps the reader from seeing
the token after it. -/
inductive GivesUp (f : Fault) (t : Token) : Mode → Prop where
  | expected (hc : f.complaint.isExpectation = true) :
      GivesUp f t (if t.kind = .semicolon then .ready else .skipping)
  | selfReference {name : String} (hc : f.complaint = .selfReference name) : GivesUp f t .skippingNext

section Faults
variable {s s' : ParseState} {t : Token} {f : Fault}

theorem Step.of_mem_fatal (h : Step s t s') (hf : f ∈ s'.fatal) :
    f ∈ s.fatal ∨ f.position = s.position ∧ f.token = t ∧ GivesUp f t s'.mode := by
  cases h with
  | goesOn _ found hfound hfaults _ =>
    rw [fatal_of_faults hfound hfaults] at hf
    exact .inl hf
  | expected _ found hfound c hc =>
    rw [fatal_fail hfound hc, List.mem_cons] at hf
    rcases hf with rfl | hf
    · exact .inr ⟨rfl, rfl, .expected hc⟩
    · exact .inl hf
  | selfReference _ _ =>
    have hf : f ∈ ⟨s.position, t, .selfReference t.lexeme⟩ :: s.fatal := hf
    rcases List.mem_cons.1 hf with rfl | hf
    · exact .inr ⟨rfl, rfl, .selfReference rfl⟩
    · exact .inl hf
  | discarded _ => exact .inl hf

/-- A fatal fault was found when the token at its position was read. -/
theorem exists_of_mem_fatal {tokens : List Token} (hf : f ∈ (tokens.foldl feed s).fatal) :
    f ∈ s.fatal ∨ ∃ before t after, tokens = before ++ t :: after ∧
      f.position = s.position + before.length ∧ f.token = t ∧
      GivesUp f t ((before ++ [t]).foldl feed s).mode := by
  induction tokens generalizing s with
  | nil => exact .inl hf
  | cons t rest ih =>
    rcases ih hf with hf | ⟨before, t', after, rfl, hposition, htoken, hmode⟩
    · rcases (step_accept s t).of_mem_fatal hf with hf | ⟨hposition, htoken, hmode⟩
      · exact .inl hf
      · exact .inr ⟨[], t, rest, rfl, hposition, htoken, hmode⟩
    · refine .inr ⟨t :: before, t', after, rfl, ?_, htoken, hmode⟩
      rw [hposition, position_feed, List.length_cons]
      omega

/-- Reading goes on at the first boundary from where a declaration is looked for again. -/
theorem GivesUp.resumesFrom {before after : List Token} (h : GivesUp f t s.mode)
    (hs : s.position = before.length + 1) (hf : f.position = before.length) :
    ResumesFrom (before ++ t :: after) f.searchStart (s.resume after) := by
  generalize hm : s.mode = mode at h
  cases h with
  | expected hc =>
    rw [Fault.searchStart_of_isExpectation hc, hf]
    exact resumesFrom_resume hs hm
  | selfReference hc =>
    rw [Fault.searchStart_of_selfReference hc, hf]
    exact resumesFrom_of_skippingNext hs hm

end Faults
end ParseState

namespace Parsed
open ParseState

/-- The state of the reader before the token at a position. -/
def stateAt (tokens : List Token) (position : Nat) : ParseState :=
  ((input tokens).take position).foldl feed {}

/-- The state in which reading goes on when the token at a position was blamed. -/
def resumed (tokens : List Token) (position : Nat) : ParseState :=
  (stateAt tokens (position + 1)).resume ((input tokens).drop (position + 1))

theorem position_stateAt (tokens : List Token) (position : Nat) :
    (stateAt tokens position).position = min position (input tokens).length := by
  rw [stateAt, position_foldl_feed, List.length_take]
  exact Nat.zero_add _

/-- Nothing has changed since the blamed token but the position and what may come next. -/
theorem resumed_eq (tokens : List Token) (position : Nat) :
    resumed tokens position = stateAt tokens (resumed tokens position).position ∧
      ∃ mode, resumed tokens position =
        { stateAt tokens (position + 1) with position := (resumed tokens position).position, mode } := by
  obtain ⟨n, mode, hle, hfold, he⟩ :=
    resume_eq (stateAt tokens (position + 1)) ((input tokens).drop (position + 1))
  have hposition : (resumed tokens position).position = (stateAt tokens (position + 1)).position + n := by
    rw [resumed, he, position_advance]
  have htake : (input tokens).take (resumed tokens position).position =
      (input tokens).take (position + 1) ++ ((input tokens).drop (position + 1)).take n := by
    rw [hposition, position_stateAt]
    rcases Nat.le_total (position + 1) (input tokens).length with h | h
    · rw [Nat.min_eq_left h, List.take_add]
    · have hn : n = 0 := by
        rw [List.length_drop] at hle
        omega
      rw [Nat.min_eq_right h, hn, Nat.add_zero, List.take_length, List.take_of_length_le h, List.take_zero,
        List.append_nil]
  constructor
  · rw [stateAt, htake, List.foldl_append]
    exact hfold
  · refine ⟨mode, ?_⟩
    rw [hposition]
    exact he

theorem resumesFrom_of_token {tokens before after : List Token} {t : Token} {f : Fault}
    (htokens : input tokens = before ++ t :: after) (hposition : f.position = before.length)
    (hmode : GivesUp f t ((before ++ [t]).foldl feed {}).mode) :
    ResumesFrom (input tokens) f.searchStart (resumed tokens f.position) := by
  have hread : stateAt tokens (f.position + 1) = (before ++ [t]).foldl feed {} := by
    rw [stateAt, htokens, hposition, List.take_length_add_append]
    rfl
  have hrest : (input tokens).drop (f.position + 1) = after := by
    rw [htokens, hposition, List.drop_length_add_append]
    rfl
  rw [← hread] at hmode
  rw [resumed, hrest, htokens]
  refine hmode.resumesFrom ?_ hposition
  rw [hread, position_foldl_feed, List.length_append]
  exact Nat.zero_add _

/-- Where the input has ended, reading stays. -/
theorem resumesFrom_of_length_le {tokens : List Token} {position start : Nat}
    (hlength : (input tokens).length ≤ position) (hstart : position ≤ start) :
    ResumesFrom (input tokens) start (resumed tokens position) := by
  have hend : (resumed tokens position).position = (input tokens).length := by
    rw [resumed, List.drop_of_length_le (by omega), resume, position_stateAt]
    omega
  refine ⟨?_, fun t ht => ?_⟩
  · rw [hend]
    exact isLeast_boundaries_length (hlength.trans hstart)
  · rw [hend, List.getElem?_eq_none (Nat.le_refl _)] at ht
    cases ht

/-- After a fatal error reading goes on at the first boundary behind the blamed token, or behind the next
one if that token is a name in its own initializer. What was read before stays as it was, and so do the
blocks that are open. -/
theorem resumed_at_first_boundary {tokens : List Token} {f : Fault}
    (hf : f ∈ (ofTokens tokens).faults) (hfatal : f.isFatal = true) :
    ResumesFrom (input tokens) f.searchStart (resumed tokens f.position) ∧
      resumed tokens f.position = stateAt tokens (resumed tokens f.position).position ∧
      ∃ mode, resumed tokens f.position =
        { stateAt tokens (f.position + 1) with
          position := (resumed tokens f.position).position, mode } := by
  refine ⟨?_, resumed_eq tokens f.position⟩
  have hf : f ∈ ((input tokens).foldl feed {}).faultsAtEnd (endMarker tokens) := hf
  rcases fatal_of_mem_faultsAtEnd hf hfatal with hf | ⟨hposition, -⟩
  · rcases exists_of_mem_fatal hf with hf | ⟨before, t, after, htokens, hposition, -, hmode⟩
    · cases hf
    · exact resumesFrom_of_token htokens (hposition.trans (Nat.zero_add _)) hmode
  · -- the end marker was blamed
    rw [position_foldl_feed] at hposition
    have hlength : (input tokens).length ≤ f.position := by
      rw [hposition]
      exact Nat.le_add_left _ _
    exact resumesFrom_of_length_le hlength f.position_lt_searchStart.le

/-- After `{ var a = a` the word `print` is thrown away with `1;`, and reading goes on at the brace. -/
theorem resumed_at_first_boundary_initializer :
    let a : Token := ⟨.identifier, "a", none, 1⟩
    let tokens : List Token :=
      [.bare .leftBrace, .bare .varKw, a, .bare .equal, a, .bare .printKw, .bare .trueKw,
        .bare .semicolon, .bare .rightBrace]
    let f : Fault := ⟨4, a, .selfReference "a"⟩
    f ∈ (ofTokens tokens).faults ∧ f.isFatal = true ∧ (resumed tokens 4).position = 8 ∧
      ResumesFrom (input tokens) 6 (resumed tokens 4) := by
  intro a tokens f
  have hf : f ∈ (ofTokens tokens).faults := List.mem_cons_self
  exact ⟨hf, rfl, rfl, (resumed_at_first_boundary hf rfl).1⟩

/-- Reading does not always go on at the first boundary behind the blamed token: in `var a = a print true;`
the word `print` is one, and is thrown away. -/
theorem not_resumed_at_next_boundary :
    ¬ ∀ (tokens : List Token) (f : Fault), f ∈ (ofTokens tokens).faults → f.isFatal = true →
      IsLeast (boundaries (input tokens) (f.position + 1)) (resumed tokens f.position).position := by
  intro h
  let a : Token := ⟨.identifier, "a", none, 1⟩
  let tokens : List Token :=
    [.bare .varKw, a, .bare .equal, a, .bare .printKw, .bare .trueKw, .bare .semicolon]
  have hleast := h tokens ⟨3, a, .selfReference "a"⟩ List.mem_cons_self rfl
  have hprint : 4 ∈ boundaries (input tokens) 4 :=
    .inr ⟨Nat.le_refl 4, .inr ⟨.bare .printKw, rfl, rfl⟩⟩
  have hle : 7 ≤ 4 := hleast.2 hprint
  exact absurd hle (by decide)

end Parsed
end BlockScript
