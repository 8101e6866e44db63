import BlockScript.Proofs.ParseHistory

/-!
# Which token is blamed

One token does one of four things to a state (`Step`): it goes on with what is being read, it is blamed
since something else was expected, it is blamed as a name in its own initializer, or it is thrown away.
Only a blamed token adds a fault for which a declaration is given up, and that fault is at the token
itself.
-/
namespace BlockScript

/-- A token of a kind, and nothing more. -/
def Token.bare (kind : Token.Kind) : Token := ⟨kind, "", none, 1⟩

theorem Fault.isFatal_iff (f : Fault) : f.isFatal = true ↔ f.complaint ≠ .invalidTarget := by
  simp [isFatal]

theorem Fault.isFatal_of_isExpectation {f : Fault} (h : f.complaint.isExpectation = true) :
    f.isFatal = true := by
  rw [isFatal_iff]
  intro hc
  rw [hc] at h
  cases h

namespace ParseState

/-- Whether tokens are thrown away until a declaration may begin. -/
def Mode.isSkipping : Mode → Bool
  | .skipping | .skippingNext => true
  | _ => false

/-- Whether the state throws the token away. -/
def discards (s : ParseState) (t : Token) : Bool :=
  match s.mode with
  | .skipping => !t.kind.beginsStatement
  | .skippingNext => true
  | _ => false

section Discards
variable {s : ParseState} {t : Token}

theorem discards_of_not_isSkipping (h : s.mode.isSkipping = false) (t : Token) : s.discards t = false := by
  unfold discards
  cases hm : s.mode <;> simp_all [Mode.isSkipping]

theorem accept_of_discards (h : s.discards t = true) : s.accept t = s.skip t := by
  unfold discards at h
  unfold accept
  cases hm : s.mode <;> simp_all

end Discards

/-- The faults for which a declaration was given up, the newest first. -/
def fatal (s : ParseState) : List Fault := s.faults.filter Fault.isFatal

/-- All that one token can do. A declaration may lose assignments to something other than a name on
its way, whether it goes on or not. -/
inductive Step (s : ParseState) (t : Token) : ParseState → Prop where
  | goesOn {s' : ParseState} (h : s.discards t = false) (found : List Fault)
      (hfound : ∀ f ∈ found, f.complaint = .invalidTarget) (hfaults : s'.faults = found ++ s.faults)
      (hmode : s'.mode.isSkipping = false) : Step s t s'
  | expected (h : s.discards t = false) (found : List Fault)
      (hfound : ∀ f ∈ found, f.complaint = .invalidTarget) (c : Complaint)
      (hc : c.isExpectation = true) : Step s t ({ s with faults := found ++ s.faults }.fail t c)
  | selfReference (h : s.discards t = false) (hk : t.kind = .identifier) :
      Step s t
        { s with
          mode := .skippingNext
          faults := ⟨s.position, t, .selfReference t.lexeme⟩ :: s.faults }
  | discarded (h : s.discards t = true) : Step s t (s.skip t)

namespace Step
variable {s : ParseState} {t : Token}

theorem of_mode (h : s.discards t = false) {mode : Mode} (hmode : mode.isSkipping = false) :
    Step s t { s with mode } :=
  .goesOn h [] (by simp) rfl hmode

theorem of_fail (h : s.discards t = false) {c : Complaint} (hc : c.isExpectation = true) :
    Step s t (s.fail t c) :=
  .expected h [] (by simp) c hc

theorem isSkipping_deliver (goal : Goal) (stack : List Frame) (e : Expr) :
    (deliver goal stack e).isSkipping = false := by
  unfold deliver
  split <;> rfl

theorem acceptOperand (h : s.discards t = false) (goal : Goal) (stack : List Frame) :
    Step s t (s.acceptOperand goal stack t) := by
  rcases acceptOperand_cases s goal stack t with
    ⟨value, -, he⟩ | ⟨-, -, he⟩ | ⟨-, he⟩ | ⟨op, -, -, he⟩ | ⟨hk, he⟩ | he
  · rw [he]
    exact of_mode h (isSkipping_deliver goal stack _)
  · rw [he]
    exact of_mode h (isSkipping_deliver goal stack _)
  · rw [he]
    exact of_mode h rfl
  · rw [he]
    exact of_mode h rfl
  · rw [he]
    exact .selfReference h hk
  · rw [he]
    exact of_fail h rfl

theorem acceptOperator (h : s.discards t = false) (goal : Goal) (stack : List Frame) (e : Expr) :
    Step s t (s.acceptOperator goal stack e t) := by
  obtain ⟨found, hfound, hsettle⟩ := settle_faults stack e s.faults
  rcases acceptOperator_cases s goal stack e t with
    ⟨op, hop⟩ | hk | ⟨hk, rest, hrest⟩ | ⟨hk, hn⟩ | ⟨c, hc, he⟩
  · rw [acceptOperator_binary hop]
    exact of_mode h rfl
  · rw [acceptOperator_equal hk]
    exact of_mode h rfl
  · obtain ⟨⟨stack', e', faults⟩, hset⟩ : ∃ r, settle stack e s.faults = r := ⟨_, rfl⟩
    rw [hset] at hrest hsettle
    obtain rfl : stack' = .paren :: rest := hrest
    rw [acceptOperator_rightParen hk hset]
    exact .goesOn h found hfound hsettle (isSkipping_deliver goal rest _)
  · rw [acceptOperator_semicolon hk rfl hn]
    exact .goesOn h found hfound hsettle rfl
  · rw [he, hsettle]
    exact .expected h found hfound c hc

theorem begin (h : s.discards t = false) : Step s t (s.begin t) := by
  rcases begin_cases s t with ⟨-, he⟩ | ⟨-, he⟩ | ⟨-, he⟩ | ⟨-, body, outer, -, he⟩ | he
  · rw [he]
    exact of_mode h rfl
  · rw [he]
    exact of_mode h rfl
  · rw [he]
    exact .goesOn h [] (by simp) rfl rfl
  · rw [he]
    exact .goesOn h [] (by simp) rfl rfl
  · rw [he]
    exact acceptOperand h .effect []

end Step

theorem step_accept (s : ParseState) (t : Token) : Step s t (s.accept t) := by
  cases h : s.discards t with
  | true =>
    rw [accept_of_discards h]
    exact .discarded h
  | false =>
    unfold accept
    cases hm : s.mode with
    | ready => exact .begin h
    | name =>
      by_cases hk : t.kind = .identifier
      · simp only [if_pos hk]
        exact .of_mode h rfl
      · simp only [if_neg hk]
        exact .of_fail h rfl
    | afterName name =>
      dsimp only
      split
      · exact .of_mode h rfl
      · exact .goesOn h [] (by simp) rfl rfl
      · exact .of_fail h rfl
    | operand goal stack => exact .acceptOperand h goal stack
    | operator goal stack e => exact .acceptOperator h goal stack e
    | skipping =>
      simp only [discards, hm, Bool.not_eq_false'] at h
      simp only [if_pos h]
      refine .begin ?_
      simp [discards, hm, h]
    | skippingNext => simp [discards, hm] at h

/-! ### Fatal faults -/

section Fatal
variable {s s' : ParseState} {t : Token}

theorem filter_isFatal_eq_nil {found : List Fault} (h : ∀ f ∈ found, f.complaint = .invalidTarget) :
    found.filter Fault.isFatal = [] := by
  rw [List.filter_eq_nil_iff]
  intro f hf
  simp [Fault.isFatal, h f hf]

theorem fatal_of_faults {found : List Fault} (hfound : ∀ f ∈ found, f.complaint = .invalidTarget)
    (h : s'.faults = found ++ s.faults) : s'.fatal = s.fatal := by
  rw [fatal, h, List.filter_append, filter_isFatal_eq_nil hfound]
  rfl

theorem fatal_fail {found : List Fault} (hfound : ∀ f ∈ found, f.complaint = .invalidTarget)
    {c : Complaint} (hc : c.isExpectation = true) :
    ({ s with faults := found ++ s.faults }.fail t c).fatal = ⟨s.position, t, c⟩ :: s.fatal := by
  have hfatal : (Fault.mk s.position t c).isFatal = true := Fault.isFatal_of_isExpectation hc
  rw [fatal, fail, List.filter_cons_of_pos hfatal]
  exact congrArg _ (fatal_of_faults hfound rfl)

/-- The token is blamed at its own position, or nothing is fatal about it. -/
theorem Step.fatal_cases (h : Step s t s') :
    s'.fatal = s.fatal ∨ ∃ c, s'.fatal = ⟨s.position, t, c⟩ :: s.fatal := by
  cases h with
  | goesOn _ found hfound hfaults _ => exact .inl (fatal_of_faults hfound hfaults)
  | expected _ found hfound c hc => exact .inr ⟨c, fatal_fail hfound hc⟩
  | selfReference _ _ => exact .inr ⟨_, rfl⟩
  | discarded _ => exact .inl rfl

/-- As long as nothing is fatal, nothing is skipped. -/
theorem Step.isSkipping_eq_false (h : Step s t s') (hm : s.mode.isSkipping = false)
    (hf : s'.fatal = s.fatal) : s'.mode.isSkipping = false := by
  cases h with
  | goesOn _ _ _ _ hmode => exact hmode
  | expected _ found hfound c hc =>
    rw [fatal_fail hfound hc] at hf
    exact absurd hf (List.cons_ne_self _ _)
  | selfReference _ _ => exact absurd hf (List.cons_ne_self _ _)
  | discarded h =>
    rw [discards_of_not_isSkipping hm] at h
    cases h

theorem getElem?_append_cons_length (before after : List Token) (t : Token) :
    (before ++ t :: after)[before.length]? = some t := by
  rw [List.getElem?_append_right (Nat.le_refl _), Nat.sub_self]
  rfl

/-- A run finds nothing fatal, or there is a first token that it blames. -/
theorem fatal_foldl_feed (tokens : List Token) (hm : s.mode.isSkipping = false) :
    ((tokens.foldl feed s).mode.isSkipping = false ∧ (tokens.foldl feed s).fatal = s.fatal) ∨
    ∃ before t after c, tokens = before ++ t :: after ∧
      (before.foldl feed s).mode.isSkipping = false ∧ (before.foldl feed s).fatal = s.fatal ∧
      ((before ++ [t]).foldl feed s).fatal = ⟨s.position + before.length, t, c⟩ :: s.fatal := by
  induction tokens generalizing s with
  | nil => exact .inl ⟨hm, rfl⟩
  | cons t rest ih =>
    have hstep := step_accept s t
    rcases hstep.fatal_cases with hf | ⟨c, hf⟩
    · have hm' : (s.feed t).mode.isSkipping = false := hstep.isSkipping_eq_false hm hf
      have hf' : (s.feed t).fatal = s.fatal := hf
      rcases ih hm' with h | ⟨before, t', after, c, rfl, hbefore, hnone, hfatal⟩
      · rw [hf'] at h
        exact .inl h
      · rw [hf'] at hnone hfatal
        refine .inr ⟨t :: before, t', after, c, rfl, hbefore, hnone, ?_⟩
        rw [List.cons_append, List.foldl_cons, hfatal, position_feed, List.length_cons]
        congr 2
        omega
    · exact .inr ⟨[], t, rest, c, rfl, hm, rfl, hf⟩

theorem fatal_foldl_suffix (tokens : List Token) (s : ParseState) :
    s.fatal <:+ (tokens.foldl feed s).fatal :=
  (faults_foldl_feed tokens s).filter Fault.isFatal

/-- Where the input ends, it is the end marker that is blamed. -/
theorem fatal_of_mem_faultsAtEnd {eof : Token} {f : Fault} (h : f ∈ s.faultsAtEnd eof)
    (hf : f.isFatal = true) : f ∈ s.fatal ∨ f.position = s.position ∧ f.token = eof := by
  have hstep : f ∈ (s.accept eof).faults → f ∈ s.fatal ∨ f.position = s.position ∧ f.token = eof := by
    intro hmem
    have hmem : f ∈ (s.accept eof).fatal := List.mem_filter.2 ⟨hmem, hf⟩
    rcases (step_accept s eof).fatal_cases with he | ⟨c, he⟩
    · exact .inl (he ▸ hmem)
    · rw [he, List.mem_cons] at hmem
      rcases hmem with rfl | hmem
      · exact .inr ⟨rfl, rfl⟩
      · exact .inl hmem
  have hkept : f ∈ s.faults → f ∈ s.fatal := fun hmem => List.mem_filter.2 ⟨hmem, hf⟩
  rw [faultsAtEnd, List.mem_append, List.mem_reverse] at h
  rcases h with h | h
  · cases hm : s.mode with
    | ready | skipping | skippingNext =>
      rw [hm] at h
      exact .inl (hkept h)
    | name | afterName | operand | operator =>
      rw [hm] at h
      exact hstep h
  · obtain ⟨_, -, rfl⟩ := List.mem_map.1 h
    exact .inr ⟨rfl, rfl⟩

/-- What was found first is first at the end. -/
theorem find?_faultsAtEnd {f : Fault} (h : s.fatal.getLast? = some f) (eof : Token) :
    (s.faultsAtEnd eof).find? Fault.isFatal = some f := by
  have hfirst : s.faults.reverse.find? Fault.isFatal = some f := by
    rw [← List.head?_filter, List.filter_reverse, List.head?_reverse]
    exact h
  have hprefix : s.faults.reverse <+: s.faultsAtEnd eof := by
    rw [faultsAtEnd]
    refine List.IsPrefix.trans ?_ (List.prefix_append _ _)
    rw [List.reverse_prefix]
    split
    · exact List.suffix_rfl
    · exact List.suffix_rfl
    · exact List.suffix_rfl
    · exact faults_accept s eof
  exact List.IsPrefix.find?_eq_some hprefix hfirst

end Fatal
end ParseState
end BlockScript
