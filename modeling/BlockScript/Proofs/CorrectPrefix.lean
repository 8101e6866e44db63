import BlockScript.Proofs.Blame
import BlockScript.Proofs.Acceptance

/-!
# The first error

As long as nothing fatal has been found, what was read can be completed to a program: the operand that is
due is `nil`, then the parentheses, the declaration and the blocks are closed. So the first fatal error is
at the first token for which that is no longer so, and no continuation removes it.
-/
namespace BlockScript

theorem Complaint.text_selfReference (name : String) :
    (selfReference name).text = "Can't read variable '" ++ name ++ "' in its own initializer." := rfl

theorem Complaint.text_eq_invalidTarget_iff (c : Complaint) :
    c.text = Complaint.invalidTarget.text ↔ c = .invalidTarget := by
  constructor
  · intro h
    cases c with
    | invalidTarget => rfl
    | selfReference name =>
      have hfirst : "Can't read variable '".toList.head? = some 'C' := by decide
      have hhead := congrArg (fun text => text.toList.head?) h
      rw [text_selfReference, String.append_assoc, String.toList_append, List.head?_append, hfirst,
        Option.some_or] at hhead
      exact absurd hhead (by decide)
    | _ => exact absurd h (by decide)
  · rintro rfl
    rfl

namespace ParseState

/-! ### Completions -/

/-- Whether some tokens complete the declaration that is being read, and add no fatal fault. The blocks
that are open stay open. -/
def Completable (s : ParseState) : Prop :=
  ∃ w : List Token, (∀ t ∈ w, t.kind ≠ .eof) ∧ (w.foldl feed s).mode = .ready ∧
    (w.foldl feed s).outer = s.outer ∧ (w.foldl feed s).fatal = s.fatal

namespace Completable
variable {s s' : ParseState} {t : Token}

theorem of_ready (h : s.mode = .ready) : s.Completable :=
  ⟨[], by simp, h, rfl, rfl⟩

theorem of_feed (ht : t.kind ≠ .eof) (he : s.feed t = s') (h : s'.Completable)
    (ho : s'.outer = s.outer) (hf : s'.fatal = s.fatal) : s.Completable := by
  obtain ⟨w, hw, hmode, houter, hfatal⟩ := h
  subst he
  exact ⟨t :: w, List.forall_mem_cons.2 ⟨ht, hw⟩, hmode, houter.trans ho, hfatal.trans hf⟩

end Completable

theorem length_settle_le (stack : List Frame) (e : Expr) (faults : List Fault) :
    (settle stack e faults).1.length ≤ stack.length := by
  induction stack generalizing e faults with
  | nil => exact Nat.le_refl 0
  | cons f stack ih =>
    cases f with
    | binary left op line => exact Nat.le_succ_of_le (ih _ faults)
    | assign target position equals =>
      rw [settle_assign]
      exact Nat.le_succ_of_le (ih _ _)
    | paren | unary => exact Nat.le_refl _

theorem exists_deliver (goal : Goal) (stack : List Frame) (e : Expr) :
    ∃ stack' e', deliver goal stack e = .operator goal stack' e' ∧ stack'.length ≤ stack.length := by
  unfold deliver
  split
  · exact ⟨_, _, rfl, Nat.le_succ _⟩
  · exact ⟨_, _, rfl, Nat.le_refl _⟩

section Feed
variable {s : ParseState} {goal : Goal} {stack : List Frame} {e : Expr} {found : List Fault}

theorem fatal_advance (hfound : ∀ f ∈ found, f.complaint = .invalidTarget) (n : Nat) (mode : Mode) :
    (s.advance n mode found).fatal = s.fatal :=
  fatal_of_faults (fun f hf => hfound f (List.mem_reverse.1 hf)) rfl

theorem fatal_complete (hfound : ∀ f ∈ found, f.complaint = .invalidTarget) (n : Nat)
    (statements : List Stmt) : (s.complete n found statements).fatal = s.fatal :=
  fatal_of_faults (fun f hf => hfound f (List.mem_reverse.1 hf)) rfl

theorem feed_semicolon (hm : s.mode = .operator goal stack e) {stack' : List Frame} {e' : Expr}
    (hs : settle stack e s.faults = (stack', e', found.reverse ++ s.faults))
    (hn : ∀ rest, stack' ≠ .paren :: rest) :
    s.feed (.bare .semicolon) = s.complete 1 found [goal.finish e'] := by
  simp only [feed, accept, hm]
  rw [acceptOperator_semicolon rfl hs hn]
  rfl

/-- After an operand the innermost parenthesis can be closed, or the declaration if there is none. -/
theorem completable_operator (hm : s.mode = .operator goal stack e) : s.Completable := by
  induction hn : stack.length using Nat.strongRecOn generalizing s stack e with
  | ind n ih =>
    have hlength := length_settle_le stack e s.faults
    obtain ⟨found, hfound, hsettle⟩ := settle_faults stack e s.faults
    obtain ⟨⟨stack', e', faults⟩, hset⟩ : ∃ r, settle stack e s.faults = r := ⟨_, rfl⟩
    rw [hset] at hlength hsettle
    obtain rfl : faults = found.reverse.reverse ++ s.faults := by rwa [List.reverse_reverse]
    have hinvalid : ∀ f ∈ found.reverse, f.complaint = .invalidTarget :=
      fun f hf => hfound f (List.mem_reverse.1 hf)
    by_cases hp : ∃ rest, stack' = .paren :: rest
    · obtain ⟨rest, rfl⟩ := hp
      obtain ⟨stack'', e'', hd, hle⟩ := exists_deliver goal rest (.grouping e')
      have hlt : stack''.length < n := by
        rw [List.length_cons] at hlength
        omega
      have he : s.feed (.bare .rightParen) = s.advance 1 (deliver goal rest (.grouping e')) found.reverse :=
        feed_rightParen hm rfl hset
      exact .of_feed (by decide) he (ih _ hlt hd rfl) rfl (fatal_advance hinvalid _ _)
    · have hnone : ∀ rest, stack' ≠ .paren :: rest := fun rest h => hp ⟨rest, h⟩
      have he := feed_semicolon hm hset hnone
      exact .of_feed (by decide) he (.of_ready rfl) rfl (fatal_complete hinvalid _ _)

theorem completable_operand (hm : s.mode = .operand goal stack) : s.Completable := by
  obtain ⟨stack', e', hd, -⟩ := exists_deliver goal stack (.literal .nil)
  have he : s.feed (.bare .nilKw) = s.advance 1 (deliver goal stack (.literal .nil)) [] :=
    feed_operand hm (acceptOperand_constant rfl)
  exact .of_feed (by decide) he (completable_operator hd) rfl rfl

theorem completable_afterName {name : Token} (hm : s.mode = .afterName name) : s.Completable := by
  have he : s.feed (.bare .semicolon) = s.complete 1 [] [.declare name none] := by
    rw [feed, accept, hm]
    rfl
  exact .of_feed (by decide) he (.of_ready rfl) rfl rfl

theorem completable_name (hm : s.mode = .name) : s.Completable := by
  have he : s.feed (.bare .identifier) = s.advance 1 (.afterName (.bare .identifier)) [] := by
    rw [feed, accept, hm]
    rfl
  exact .of_feed (by decide) he (completable_afterName rfl) rfl rfl

theorem completable (hm : s.mode.isSkipping = false) : s.Completable := by
  cases h : s.mode with
  | ready => exact .of_ready h
  | name => exact completable_name h
  | afterName name => exact completable_afterName h
  | operand goal stack => exact completable_operand h
  | operator goal stack e => exact completable_operator h
  | skipping | skippingNext =>
    rw [h] at hm
    cases hm

end Feed

/-- Where nothing is fatal yet, the open blocks can be closed too. -/
theorem exists_completion {s : ParseState} (hm : s.mode.isSkipping = false) :
    ∃ w : List Token, (∀ t ∈ w, t.kind ≠ .eof) ∧ (w.foldl feed s).mode = .ready ∧
      (w.foldl feed s).outer = [] ∧ (w.foldl feed s).fatal = s.fatal := by
  induction ho : s.outer generalizing s with
  | nil =>
    obtain ⟨w, hw, hmode, houter, hfatal⟩ := completable hm
    exact ⟨w, hw, hmode, houter.trans ho, hfatal⟩
  | cons body outer ih =>
    obtain ⟨w, hw, hmode, houter, hfatal⟩ := completable hm
    have he := reads_rightBrace ⟨.bare .rightBrace, rfl⟩ hmode (houter.trans ho)
    obtain ⟨w', hw', hmode', houter', hfatal'⟩ := ih (s := (w.foldl feed s).feed (.bare .rightBrace))
      (by rw [he]; rfl) (by rw [he])
    have hbrace : ∀ t ∈ Token.bare .rightBrace :: w', t.kind ≠ .eof :=
      List.forall_mem_cons.2 ⟨by decide, hw'⟩
    refine ⟨w ++ .bare .rightBrace :: w', List.forall_mem_append.2 ⟨hw, hbrace⟩, ?_⟩
    rw [List.foldl_append, List.foldl_cons]
    refine ⟨hmode', houter', hfatal'.trans ?_⟩
    rw [he]
    exact hfatal

end ParseState

/-! ### The first fatal error -/

namespace Parsed
open ParseState

/-- The first fault other than an assignment to something that is not a name, as its message tells. -/
def firstFatal (p : Parsed) : Option Fault :=
  p.faults.find? fun f => f.error.message != Complaint.invalidTarget.text

theorem firstFatal_eq (p : Parsed) : p.firstFatal = p.faults.find? Fault.isFatal := by
  have he : (fun f : Fault => f.error.message != Complaint.invalidTarget.text) = Fault.isFatal := by
    funext f
    rw [Bool.eq_iff_iff, Fault.isFatal_iff, bne_iff_ne]
    exact not_congr (Complaint.text_eq_invalidTarget_iff f.complaint)
  rw [firstFatal, he]

theorem input_append {tokens : List Token} (h : ∀ t ∈ tokens, t.kind ≠ .eof) (rest : List Token) :
    input (tokens ++ rest) = tokens ++ input rest := by
  rw [input, List.takeWhile_append_of_pos (by simpa using h)]
  rfl

theorem input_append_eof {tokens : List Token} {eof : Token} (h : ∀ t ∈ tokens, t.kind ≠ .eof)
    (he : eof.kind = .eof) : input (tokens ++ [eof]) = tokens := by
  rw [input_append h, input, List.takeWhile_cons_of_neg (by simp [he]), List.append_nil]

theorem endMarker_append_eof {tokens : List Token} {eof : Token} (h : ∀ t ∈ tokens, t.kind ≠ .eof)
    (he : eof.kind = .eof) : endMarker (tokens ++ [eof]) = eof := by
  have hnone : tokens.find? (fun t => t.kind = .eof) = none := by simpa using h
  rw [endMarker, List.find?_append, hnone]
  simp [he]

theorem firstFatal_ofTokens (tokens : List Token) :
    (ofTokens tokens).firstFatal =
      (((input tokens).foldl feed {}).faultsAtEnd (endMarker tokens)).find? Fault.isFatal :=
  firstFatal_eq _

/-- What is blamed first stays so, however the input goes on. -/
theorem firstFatal_append {tokens : List Token} {f : Fault} (h : ∀ t ∈ tokens, t.kind ≠ .eof)
    (hf : (tokens.foldl feed {}).fatal.getLast? = some f) (rest : List Token) :
    (ofTokens (tokens ++ rest)).firstFatal = some f := by
  rw [firstFatal_ofTokens, input_append h, List.foldl_append]
  refine find?_faultsAtEnd ?_ _
  have hsuffix := fatal_foldl_suffix (input rest) (tokens.foldl feed {})
  obtain ⟨later, hlater⟩ := hsuffix
  rw [← hlater, List.getLast?_append, hf, Option.some_or]

/-- What can be completed has a completion without fatal errors. -/
theorem exists_firstFatal_eq_none {tokens : List Token} (h : ∀ t ∈ tokens, t.kind ≠ .eof)
    (hm : (tokens.foldl feed {}).mode.isSkipping = false)
    (hf : (tokens.foldl feed {}).fatal = []) :
    ∃ w : List Token, (∀ t ∈ w, t.kind ≠ .eof) ∧
      ∀ eof : Token, eof.kind = .eof → (ofTokens (tokens ++ w ++ [eof])).firstFatal = none := by
  obtain ⟨w, hw, hmode, houter, hfatal⟩ := exists_completion hm
  refine ⟨w, hw, fun eof heof => ?_⟩
  have hall : ∀ t ∈ tokens ++ w, t.kind ≠ .eof := List.forall_mem_append.2 ⟨h, hw⟩
  rw [firstFatal_ofTokens, input_append_eof hall heof, List.foldl_append, faultsAtEnd, hmode, houter]
  rw [List.map_nil, List.append_nil, List.find?_eq_none]
  intro f hmem hfault
  have hmem : f ∈ (w.foldl feed (tokens.foldl feed {})).fatal :=
    List.mem_filter.2 ⟨List.mem_reverse.1 hmem, hfault⟩
  rw [hfatal, hf] at hmem
  cases hmem

/-- Where no token is blamed, it is the end marker that is. -/
theorem position_eq_length {tokens : List Token} {eof : Token} {f : Fault}
    (htokens : ∀ t ∈ tokens, t.kind ≠ .eof) (heof : eof.kind = .eof)
    (hnone : (tokens.foldl feed {}).fatal = [])
    (hf : (ofTokens (tokens ++ [eof])).firstFatal = some f) :
    f.position = tokens.length ∧ f.token = eof := by
  rw [firstFatal_ofTokens, input_append_eof htokens heof, endMarker_append_eof htokens heof] at hf
  have hmem := List.mem_of_find?_eq_some hf
  rcases fatal_of_mem_faultsAtEnd hmem (List.find?_some hf) with hmem | ⟨hposition, htoken⟩
  · rw [hnone] at hmem
    cases hmem
  · rw [position_foldl_feed] at hposition
    exact ⟨hposition.trans (Nat.zero_add _), htoken⟩

/-- The first fatal error is at the first token after which nothing can be completed: what stands before
that token has a completion without fatal errors, and with the token it has this first one however it
goes on. At the end of the input it is the end marker that is blamed. -/
theorem firstFatal_earliest {tokens : List Token} {eof : Token} {f : Fault}
    (htokens : ∀ t ∈ tokens, t.kind ≠ .eof) (heof : eof.kind = .eof)
    (hf : (ofTokens (tokens ++ [eof])).firstFatal = some f) :
    (tokens ++ [eof])[f.position]? = some f.token ∧
    (∃ w : List Token, (∀ t ∈ w, t.kind ≠ .eof) ∧
      ∀ eof' : Token, eof'.kind = .eof →
        (ofTokens (tokens.take f.position ++ w ++ [eof'])).firstFatal = none) ∧
    (f.position < tokens.length → ∀ rest : List Token,
      (ofTokens (tokens.take (f.position + 1) ++ rest)).firstFatal = some f) := by
  rcases fatal_foldl_feed (s := {}) tokens rfl with
    ⟨hmode, hfatal⟩ | ⟨before, t, after, c, rfl, hmode, hnone, hfatal⟩
  · -- no token is blamed
    obtain ⟨hposition, htoken⟩ := position_eq_length htokens heof hfatal hf
    rw [hposition, htoken]
    refine ⟨List.getElem?_concat_length, ?_, fun hlt => absurd hlt (Nat.lt_irrefl _)⟩
    rw [List.take_length]
    exact exists_firstFatal_eq_none htokens hmode hfatal
  · obtain ⟨hbefore, hfrom⟩ := List.forall_mem_append.1 htokens
    have hblamed : ∀ t' ∈ before ++ [t], t'.kind ≠ .eof :=
      List.forall_mem_append.2
        ⟨hbefore, List.forall_mem_singleton.2 (hfrom t List.mem_cons_self)⟩
    have hlast : ((before ++ [t]).foldl feed {}).fatal.getLast? = some ⟨before.length, t, c⟩ := by
      rw [hfatal]
      simp [fatal]
    have hfirst := firstFatal_append hblamed hlast
    have hinput : before ++ t :: after ++ [eof] = before ++ [t] ++ (after ++ [eof]) := by simp
    rw [hinput, hfirst, Option.some.injEq] at hf
    subst hf
    refine ⟨?_, ?_, fun _ rest => ?_⟩
    · rw [List.append_assoc]
      exact getElem?_append_cons_length before (after ++ [eof]) t
    · rw [List.take_left]
      exact exists_firstFatal_eq_none hbefore hmode hnone
    · have htake : (before ++ t :: after).take (before.length + 1) = before ++ [t] := by
        rw [List.take_length_add_append]
        rfl
      rw [htake]
      exact hfirst rest

/-- In `var a = (a;` the second `a` is to blame: what stands before it can be completed, and with it nothing
can. -/
theorem firstFatal_earliest_initializer :
    let a : Token := ⟨.identifier, "a", none, 1⟩
    let tokens : List Token :=
      [.bare .varKw, a, .bare .equal, .bare .leftParen, a, .bare .semicolon]
    let f : Fault := ⟨4, a, .selfReference "a"⟩
    (ofTokens (tokens ++ [.atEnd 1])).firstFatal = some f ∧
      (∃ w : List Token, (ofTokens (tokens.take 4 ++ w ++ [.atEnd 1])).firstFatal = none) ∧
      ∀ rest : List Token, (ofTokens (tokens.take 5 ++ rest)).firstFatal = some f := by
  intro a tokens f
  have htokens : ∀ t ∈ tokens, t.kind ≠ .eof := by decide
  have hf : (ofTokens (tokens ++ [.atEnd 1])).firstFatal = some f := by rfl
  obtain ⟨-, ⟨w, -, hw⟩, hrest⟩ := firstFatal_earliest htokens rfl hf
  exact ⟨hf, ⟨w, hw (.atEnd 1) rfl⟩, hrest (by decide)⟩

end Parsed
end BlockScript
