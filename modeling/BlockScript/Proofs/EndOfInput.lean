import Mathlib.Data.List.TakeWhile
import Mathlib.Logic.Function.Iterate
import BlockScript.Proofs.GuardedNames
import BlockScript.Proofs.KeptTokens

/-!
# The end of the input

The input ends before the first end marker, or after the last token if there is none. A cursor that stops at
an end marker reads the same as the whole input at once (`iterate_readNext`). The end marker itself is
never taken in: it only gives its line to the faults that are found when nothing is left to read.
-/
namespace BlockScript
namespace ParseState

/-! ### Positions of faults -/

/-- Whether the frame remembers a token with its position among the tokens. -/
def Frame.IsAt (tokens : List Token) : Frame → Prop
  | .assign _ position equals => tokens[position]? = some equals
  | .paren | .unary _ _ | .binary _ _ _ => True

/-- The frames of the expression being read. -/
def Mode.stack : Mode → List Frame
  | .operand _ stack | .operator _ stack _ => stack
  | _ => []

/-- Whether all faults, and the assignments that may become faults, are at positions of their tokens. -/
structure Located (tokens : List Token) (s : ParseState) : Prop where
  faults : ∀ f ∈ s.faults, tokens[f.position]? = some f.token
  frames : ∀ frame ∈ s.mode.stack, frame.IsAt tokens

section Frames
variable {stack : List Frame} {e : Expr} {tokens : List Token}

theorem reduce_suffix (level : Nat) (stack : List Frame) (e : Expr) : (reduce level stack e).1 <:+ stack := by
  induction stack generalizing e with
  | nil => exact List.suffix_rfl
  | cons f stack ih =>
    cases f with
    | binary left op line =>
      rw [reduce]
      split
      · exact (ih _).trans (List.suffix_cons _ _)
      · exact List.suffix_rfl
    | paren | unary | assign => exact List.suffix_rfl

theorem settle_suffix (stack : List Frame) (e : Expr) (faults : List Fault) :
    (settle stack e faults).1 <:+ stack := by
  induction stack generalizing e faults with
  | nil => exact List.suffix_rfl
  | cons f stack ih =>
    cases f with
    | binary left op line => exact (ih _ _).trans (List.suffix_cons _ _)
    | assign target position equals =>
      rw [settle_assign]
      exact (ih _ _).trans (List.suffix_cons _ _)
    | paren | unary => exact List.suffix_rfl

theorem stack_deliver_suffix (goal : Goal) (stack : List Frame) (e : Expr) :
    (deliver goal stack e).stack <:+ stack := by
  unfold deliver
  split
  · exact List.suffix_cons _ _
  · exact List.suffix_rfl

/-- The faults that settling finds are at the `=` of assignments. -/
theorem settle_located {faults : List Fault} (hfaults : ∀ f ∈ faults, tokens[f.position]? = some f.token)
    (hstack : ∀ frame ∈ stack, frame.IsAt tokens) :
    ∀ f ∈ (settle stack e faults).2.2, tokens[f.position]? = some f.token := by
  induction stack generalizing e faults with
  | nil => exact hfaults
  | cons f stack ih =>
    obtain ⟨hframe, hrest⟩ := List.forall_mem_cons.1 hstack
    cases f with
    | binary left op line => exact ih hfaults hrest
    | assign target position equals =>
      rw [settle_assign]
      refine ih (List.forall_mem_append.2 ⟨fun f hf => ?_, hfaults⟩) hrest
      have hf := List.mem_reverse.1 hf
      unfold Grammar.targetFaults at hf
      split at hf
      · cases hf
      · obtain rfl := List.mem_singleton.1 hf
        exact hframe
    | paren | unary => exact hfaults

end Frames

namespace Located
variable {tokens : List Token} {s : ParseState} {t : Token} {goal : Goal} {stack : List Frame}

theorem setMode (h : Located tokens s) {mode : Mode} (hmode : ∀ frame ∈ mode.stack, frame.IsAt tokens) :
    Located tokens { s with mode } :=
  ⟨h.faults, hmode⟩

theorem fail (h : Located tokens s) (ht : tokens[s.position]? = some t) (c : Complaint) :
    Located tokens (s.fail t c) := by
  refine ⟨List.forall_mem_cons.2 ⟨ht, h.faults⟩, ?_⟩
  rw [ParseState.fail]
  split <;> exact List.forall_mem_nil _

theorem acceptOperand (h : Located tokens s) (ht : tokens[s.position]? = some t)
    (hstack : ∀ frame ∈ stack, frame.IsAt tokens) (goal : Goal) :
    Located tokens (s.acceptOperand goal stack t) := by
  have hprimary (e : Expr) : Located tokens { s with mode := deliver goal stack e } :=
    h.setMode fun frame hframe => hstack frame ((stack_deliver_suffix goal stack e).subset hframe)
  rcases acceptOperand_cases s goal stack t with
    ⟨v, -, he⟩ | ⟨-, -, he⟩ | ⟨-, he⟩ | ⟨op, -, -, he⟩ | ⟨-, he⟩ | he <;> rw [he]
  · exact hprimary _
  · exact hprimary _
  · exact h.setMode (List.forall_mem_cons.2 ⟨trivial, hstack⟩)
  · exact h.setMode (List.forall_mem_cons.2 ⟨trivial, hstack⟩)
  · exact ⟨List.forall_mem_cons.2 ⟨ht, h.faults⟩, List.forall_mem_nil _⟩
  · exact h.fail ht _

theorem acceptOperator (h : Located tokens s) (ht : tokens[s.position]? = some t)
    (hstack : ∀ frame ∈ stack, frame.IsAt tokens) (goal : Goal) (e : Expr) :
    Located tokens (s.acceptOperator goal stack e t) := by
  have hreduce (level : Nat) : ∀ frame ∈ (reduce level stack e).1, frame.IsAt tokens :=
    fun frame hframe => hstack frame ((reduce_suffix level stack e).subset hframe)
  have hsettle := settle_suffix stack e s.faults
  have hfaults := settle_located (e := e) h.faults hstack
  rcases acceptOperator_cases s goal stack e t with
    ⟨op, hop⟩ | hk | ⟨hk, rest, hrest⟩ | ⟨hk, hn⟩ | ⟨c, -, he⟩
  · rw [acceptOperator_binary hop]
    exact h.setMode (List.forall_mem_cons.2 ⟨trivial, hreduce _⟩)
  · rw [acceptOperator_equal hk]
    exact h.setMode (List.forall_mem_cons.2 ⟨ht, hreduce 0⟩)
  · obtain ⟨⟨stack', e', faults⟩, hset⟩ : ∃ r, settle stack e s.faults = r := ⟨_, rfl⟩
    rw [hset] at hrest hsettle hfaults
    obtain rfl : stack' = .paren :: rest := hrest
    rw [acceptOperator_rightParen hk hset]
    have hdeliver := (stack_deliver_suffix goal rest (.grouping e')).trans (List.suffix_cons Frame.paren rest)
    exact ⟨hfaults, fun frame hframe => hstack frame ((hdeliver.trans hsettle).subset hframe)⟩
  · rw [acceptOperator_semicolon hk rfl hn]
    exact ⟨hfaults, List.forall_mem_nil _⟩
  · rw [he]
    have hs : Located tokens { s with faults := (settle stack e s.faults).2.2 } := ⟨hfaults, h.frames⟩
    exact hs.fail ht c

theorem begin (h : Located tokens s) (ht : tokens[s.position]? = some t) : Located tokens (s.begin t) := by
  rcases begin_cases s t with ⟨-, he⟩ | ⟨-, he⟩ | ⟨-, he⟩ | ⟨-, body, outer, -, he⟩ | he <;> rw [he]
  · exact h.setMode (List.forall_mem_nil _)
  · exact h.setMode (List.forall_mem_nil _)
  · exact ⟨h.faults, List.forall_mem_nil _⟩
  · exact ⟨h.faults, List.forall_mem_nil _⟩
  · exact h.acceptOperand ht (List.forall_mem_nil _) .effect

theorem skip (h : Located tokens s) (t : Token) : Located tokens (s.skip t) := by
  refine h.setMode ?_
  split <;> exact List.forall_mem_nil _

theorem accept (h : Located tokens s) (ht : tokens[s.position]? = some t) : Located tokens (s.accept t) := by
  have hframes := h.frames
  unfold ParseState.accept
  cases hm : s.mode with
  | ready => exact h.begin ht
  | name =>
    dsimp only
    split
    · exact h.setMode (List.forall_mem_nil _)
    · exact h.fail ht _
  | afterName name =>
    dsimp only
    split
    · exact h.setMode (List.forall_mem_nil _)
    · exact ⟨h.faults, List.forall_mem_nil _⟩
    · exact h.fail ht _
  | operand goal stack =>
    rw [hm] at hframes
    exact h.acceptOperand ht hframes goal
  | operator goal stack e =>
    rw [hm] at hframes
    exact h.acceptOperator ht hframes goal e
  | skipping =>
    dsimp only
    split
    · exact h.begin ht
    · exact h.skip t
  | skippingNext => exact h.skip t

theorem feed (h : Located tokens s) (ht : tokens[s.position]? = some t) : Located tokens (s.feed t) :=
  ⟨(h.accept ht).faults, (h.accept ht).frames⟩

theorem faultsAtEnd {eof : Token} (h : Located tokens s) (heof : tokens[s.position]? = some eof) :
    ∀ f ∈ s.faultsAtEnd eof, tokens[f.position]? = some f.token := by
  intro f hf
  rw [ParseState.faultsAtEnd, List.mem_append, List.mem_reverse] at hf
  rcases hf with hf | hf
  · split at hf
    · exact h.faults f hf
    · exact h.faults f hf
    · exact h.faults f hf
    · exact (h.accept heof).faults f hf
  · obtain ⟨_, -, rfl⟩ := List.mem_map.1 hf
    exact heof

end Located

/-! ### End markers -/

/-- The complaint about an end marker after an operand does not depend on the end marker. -/
theorem exists_complaint_after_operand (s : ParseState) (goal : Goal) (stack : List Frame) (e : Expr) :
    ∃ c, ∀ eof : Token, eof.kind = .eof →
      s.acceptOperator goal stack e eof = { s with faults := (settle stack e s.faults).2.2 }.fail eof c := by
  obtain ⟨⟨stack', e', faults⟩, hset⟩ : ∃ r, settle stack e s.faults = r := ⟨_, rfl⟩
  cases stack' with
  | nil => exact ⟨goal.unfinished, fun eof heof => by simp [acceptOperator, heof, BinaryOp.ofKind?, hset]⟩
  | cons f rest =>
    cases f with
    | paren => exact ⟨.expectClosingParen, fun eof heof => by simp [acceptOperator, heof, BinaryOp.ofKind?, hset]⟩
    | unary | binary | assign =>
      exact ⟨goal.unfinished, fun eof heof => by simp [acceptOperator, heof, BinaryOp.ofKind?, hset]⟩

/-- An end marker cannot go on with a declaration, whatever it looks like. -/
theorem exists_complaint (s : ParseState) (hskipping : s.mode.isSkipping = false) :
    ∃ faults c, ∀ eof : Token, eof.kind = .eof → (s.accept eof).faults = ⟨s.position, eof, c⟩ :: faults := by
  have hoperand (goal : Goal) (stack : List Frame) (eof : Token) (heof : eof.kind = .eof) :
      s.acceptOperand goal stack eof = s.fail eof .expectExpression :=
    acceptOperand_other (by simp [Token.constant?, heof]) (by simp [heof]) (by simp [heof])
      (by simp [UnaryOp.ofKind?, heof])
  cases hm : s.mode with
  | ready =>
    refine ⟨s.faults, .expectExpression, fun eof heof => ?_⟩
    have hbegin : s.begin eof = s.acceptOperand .effect [] eof := by simp [begin, heof]
    rw [accept, hm]
    dsimp only
    rw [hbegin, hoperand .effect [] eof heof, fail]
  | name => exact ⟨s.faults, .expectName, fun eof heof => by simp [accept, hm, heof, fail]⟩
  | afterName name =>
    exact ⟨s.faults, .expectSemicolonAfterDeclaration, fun eof heof => by simp [accept, hm, heof, fail]⟩
  | operand goal stack =>
    refine ⟨s.faults, .expectExpression, fun eof heof => ?_⟩
    rw [accept, hm]
    dsimp only
    rw [hoperand goal stack eof heof, fail]
  | operator goal stack e =>
    obtain ⟨c, hc⟩ := exists_complaint_after_operand s goal stack e
    refine ⟨(settle stack e s.faults).2.2, c, fun eof heof => ?_⟩
    rw [accept, hm]
    dsimp only
    rw [hc eof heof, fail]
  | skipping | skippingNext =>
    rw [hm] at hskipping
    cases hskipping

/-- What is found at the end of the input depends on the end marker only in that it is blamed. -/
theorem exists_complaints_at_end (s : ParseState) :
    ∃ found complaints, ∀ eof : Token, eof.kind = .eof →
      s.faultsAtEnd eof = found ++ List.map (Fault.mk s.position eof) complaints := by
  have hopen (eof : Token) : (s.outer.map fun _ => Fault.mk s.position eof .expectClosingBrace) =
      (s.outer.map fun _ => Complaint.expectClosingBrace).map (Fault.mk s.position eof) := by
    rw [List.map_map]
    rfl
  simp only [faultsAtEnd, hopen]
  cases hm : s.mode with
  | ready | skipping | skippingNext => exact ⟨s.faults.reverse, _, fun _ _ => rfl⟩
  | name | afterName | operand | operator =>
    obtain ⟨faults, c, hc⟩ := s.exists_complaint (by rw [hm]; rfl)
    refine ⟨faults.reverse, c :: s.outer.map fun _ => .expectClosingBrace, fun eof heof => ?_⟩
    dsimp only
    rw [hc eof heof, List.reverse_cons, List.append_assoc]
    rfl

end ParseState

namespace Parsed
open Grammar ParseState

/-! ### The cursor -/

/-- The line of the last token. -/
def lastLine (tokens : List Token) : UInt32 := (tokens.getLast?.map Token.line).getD 1

/-- The line of the first end marker, or of the last token if there is none. -/
def endLine (tokens : List Token) : UInt32 :=
  match tokens.find? fun t => t.kind = .eof with
  | some eof => eof.line
  | none => lastLine tokens

/-- The token at a position; behind the last one there are end markers. -/
def peek (tokens : List Token) (position : Nat) : Token :=
  (tokens[position]?).getD (.atEnd (lastLine tokens))

/-- Takes the token at the cursor, unless it is an end marker. -/
def readNext (tokens : List Token) (s : ParseState) : ParseState :=
  if (peek tokens s.position).kind = .eof then s else s.feed (peek tokens s.position)

section Cursor
variable {tokens : List Token} {n : Nat} {t : Token}

theorem line_endMarker (tokens : List Token) : (endMarker tokens).line = endLine tokens := by
  unfold endMarker endLine
  cases tokens.find? fun t => t.kind = .eof <;> rfl

theorem kind_ne_eof_of_mem_input (h : t ∈ input tokens) : t.kind ≠ .eof := by
  simpa using List.mem_takeWhile_imp h

theorem input_append_dropWhile (tokens : List Token) :
    input tokens ++ tokens.dropWhile (fun t => t.kind ≠ .eof) = tokens :=
  List.takeWhile_append_dropWhile

theorem peek_of_input (h : (input tokens)[n]? = some t) : peek tokens n = t := by
  have hlt := (List.getElem?_eq_some_iff.1 h).1
  have hget : tokens[n]? = some t := by
    rw [← input_append_dropWhile tokens, List.getElem?_append_left hlt, h]
  rw [peek, hget]
  rfl

theorem peek_length (tokens : List Token) : peek tokens (input tokens).length = endMarker tokens := by
  have hget : tokens[(input tokens).length]? = tokens.find? fun t => t.kind = .eof := by
    have happend (rest : List Token) : (input tokens ++ rest)[(input tokens).length]? = rest.head? := by
      rw [List.getElem?_append_right (Nat.le_refl _), Nat.sub_self, List.head?_eq_getElem?]
    have hrest := happend (tokens.dropWhile fun t => t.kind ≠ .eof)
    rw [input_append_dropWhile] at hrest
    rw [hrest, List.find?_eq_head?_dropWhile_not]
    simp
  rw [peek, hget]
  rfl

theorem stateAt_of_length_le (h : (input tokens).length ≤ n) :
    stateAt tokens n = (input tokens).foldl feed {} := by
  rw [stateAt, List.take_of_length_le h]

/-- The cursor goes through the tokens before the end marker and then stays. -/
theorem iterate_readNext (tokens : List Token) (n : Nat) : (readNext tokens)^[n] {} = stateAt tokens n := by
  induction n with
  | zero => rfl
  | succ n ih =>
    rw [Function.iterate_succ_apply', ih]
    rcases Nat.lt_or_ge n (input tokens).length with hn | hn
    · have ht := List.getElem?_eq_getElem hn
      have hpeek : peek tokens (stateAt tokens n).position = (input tokens)[n] := by
        rw [position_stateAt_of_le hn.le, peek_of_input ht]
      rw [readNext, hpeek, if_neg (kind_ne_eof_of_mem_input (List.getElem_mem hn)), stateAt_succ ht]
    · have hpeek : peek tokens (stateAt tokens n).position = endMarker tokens := by
        rw [position_stateAt, Nat.min_eq_right hn, peek_length]
      rw [readNext, hpeek, if_pos (kind_endMarker tokens), stateAt_of_length_le hn,
        stateAt_of_length_le (Nat.le_succ_of_le hn)]

end Cursor

/-! ### Faults -/

section Faults
variable {tokens tokens' : List Token} {eof : Token} {n : Nat}

theorem located_stateAt (h : n ≤ (input tokens).length) :
    Located (input tokens ++ [endMarker tokens]) (stateAt tokens n) := by
  induction n with
  | zero => exact ⟨List.forall_mem_nil _, List.forall_mem_nil _⟩
  | succ n ih =>
    have hle := Nat.le_of_succ_le h
    have ht := List.getElem?_eq_getElem h
    rw [stateAt_succ ht]
    refine (ih hle).feed ?_
    rw [position_stateAt_of_le hle, List.getElem?_append_left h, ht]

/-- Each fault blames the token at its position, where the end marker comes after all others. -/
theorem getElem?_position {f : Fault} (hf : f ∈ (ofTokens tokens).faults) :
    (input tokens ++ [endMarker tokens])[f.position]? = some f.token := by
  have hfinal := stateAt_of_length_le (Nat.le_refl (input tokens).length)
  have hf : f ∈ ((input tokens).foldl feed {}).faultsAtEnd (endMarker tokens) := hf
  rw [← hfinal] at hf
  refine (located_stateAt (Nat.le_refl _)).faultsAtEnd ?_ f hf
  rw [position_stateAt_of_le (Nat.le_refl _)]
  exact List.getElem?_concat_length

theorem error_of_mem_faults {f : Fault} (hf : f ∈ (ofTokens tokens).faults) :
    (∃ t, (input tokens)[f.position]? = some t ∧ f.error = ⟨t.line, .atLexeme t.lexeme, f.complaint.text⟩) ∨
      f.position = (input tokens).length ∧ f.error = ⟨endLine tokens, .atEnd, f.complaint.text⟩ := by
  have hat := getElem?_position hf
  rcases Nat.lt_or_ge f.position (input tokens).length with hlt | hge
  · rw [List.getElem?_append_left hlt] at hat
    have hkind := kind_ne_eof_of_mem_input (List.mem_of_getElem? hat)
    refine .inl ⟨f.token, hat, ?_⟩
    rw [Fault.error, SyntaxError.Location.ofToken, if_neg hkind]
  · have hlt := (List.getElem?_eq_some_iff.1 hat).1
    rw [List.length_append, List.length_singleton] at hlt
    have hposition : f.position = (input tokens).length := by omega
    rw [hposition, List.getElem?_concat_length, Option.some.injEq] at hat
    refine .inr ⟨hposition, ?_⟩
    rw [Fault.error, SyntaxError.Location.ofToken, ← hat, if_pos (kind_endMarker tokens), line_endMarker]

theorem map_error_complaints (heof : eof.kind = .eof) (position : Nat) (complaints : List Complaint) :
    (complaints.map (Fault.mk position eof)).map Fault.error =
      complaints.map fun c => ⟨eof.line, .atEnd, c.text⟩ := by
  rw [List.map_map]
  refine List.map_congr_left fun c _ => ?_
  simp [Fault.error, SyntaxError.Location.ofToken, heof]

/-- Of the end marker only its line shows. -/
theorem ofTokens_congr (hinput : input tokens = input tokens')
    (hline : (endMarker tokens).line = (endMarker tokens').line) :
    (ofTokens tokens).statements = (ofTokens tokens').statements ∧
      (ofTokens tokens).errors = (ofTokens tokens').errors ∧
      (ofTokens tokens).skipped = (ofTokens tokens').skipped := by
  obtain ⟨found, complaints, hend⟩ := ((input tokens').foldl feed {}).exists_complaints_at_end
  have hfaults (tokens : List Token) (hinput : input tokens = input tokens') : (ofTokens tokens).faults =
      found ++ complaints.map (Fault.mk ((input tokens').foldl feed {}).position (endMarker tokens)) := by
    rw [← hend _ (kind_endMarker tokens), ← hinput]
    rfl
  have hfatal (eof : Token) : Fault.isFatal ∘ Fault.mk ((input tokens').foldl feed {}).position eof =
      fun c => c != .invalidTarget := rfl
  refine ⟨?_, ?_, ?_⟩
  · change ((input tokens).foldl feed {}).statements = ((input tokens').foldl feed {}).statements
    rw [hinput]
  · rw [errors, errors, hfaults tokens hinput, hfaults tokens' rfl, List.map_append, List.map_append,
      map_error_complaints (kind_endMarker _), map_error_complaints (kind_endMarker _), hline]
  · rw [skipped, skipped, hfaults tokens hinput, hfaults tokens' rfl, List.filter_append, List.filter_append,
      List.filter_map, List.filter_map, hfatal, hfatal, List.map_append, List.map_append,
      map_error_complaints (kind_endMarker _), map_error_complaints (kind_endMarker _), hline]

/-- Nothing is read behind an end marker. -/
theorem ofTokens_append_eof (heof : eof.kind = .eof) (before rest : List Token) :
    ofTokens (before ++ eof :: rest) = ofTokens (before ++ [eof]) := by
  have hinput : input (before ++ eof :: rest) = input (before ++ [eof]) := by
    simp [input, List.takeWhile_append, heof]
  have hmarker : endMarker (before ++ eof :: rest) = endMarker (before ++ [eof]) := by
    simp only [endMarker, List.find?_append, List.find?_cons, heof, decide_true]
    cases before.find? fun t => t.kind = .eof <;> rfl
  change Parsed.mk ((input _).foldl feed {}).statements (((input _).foldl feed {}).faultsAtEnd (endMarker _)) = _
  rw [hinput, hmarker]
  rfl

end Faults

/-- The input ends before the first end marker, or after the last token if there is none. It is read just as
if an end marker on the same line came there, whatever it looks like, and what comes behind an end marker is
not read at all. A cursor that stops at end markers reads the same, and it stops there. All statements are
derived from tokens before the end, in their order, and so are all names in them. The errors are at tokens
before the end, or they are located at the end and on its line. -/
theorem input_ends_at_endMarker (tokens : List Token) :
    (∀ lexeme literal,
      let marked := ofTokens (input tokens ++ [⟨.eof, lexeme, literal, endLine tokens⟩])
      (ofTokens tokens).statements = marked.statements ∧ (ofTokens tokens).errors = marked.errors ∧
        (ofTokens tokens).skipped = marked.skipped) ∧
    (∀ before eof rest, tokens = before ++ eof :: rest → eof.kind = .eof →
      ofTokens tokens = ofTokens (before ++ [eof])) ∧
    (∀ n ≥ (input tokens).length,
      let s := (readNext tokens)^[n] {}
      s.position = (input tokens).length ∧
        ofTokens tokens = ⟨s.statements, s.faultsAtEnd (peek tokens s.position)⟩) ∧
    (∃ ds, (Declaration.tokensOfAll ds).Sublist (input tokens) ∧ Declaration.GuardedAll ds ∧
      Declaration.AllAssignNames ds ∧ Declaration.statementsOfAll ds = (ofTokens tokens).statements) ∧
    (Stmt.namesOfAll (ofTokens tokens).statements).Sublist (identifiers (input tokens)) ∧
    ∀ f ∈ (ofTokens tokens).faults,
      (∃ t, (input tokens)[f.position]? = some t ∧ f.error = ⟨t.line, .atLexeme t.lexeme, f.complaint.text⟩) ∨
        f.position = (input tokens).length ∧ f.error = ⟨endLine tokens, .atEnd, f.complaint.text⟩ := by
  obtain ⟨ds, htokens, hguarded, hassigns, hstatements⟩ := exists_derivation_of_statements tokens
  refine ⟨fun lexeme literal => ?_, fun before eof rest h heof => ?_, fun n hn => ?_,
    ⟨ds, htokens, hguarded, hassigns, hstatements⟩, ?_, fun f hf => error_of_mem_faults hf⟩
  · have hinput : ∀ t ∈ input tokens, t.kind ≠ .eof := fun t => kind_ne_eof_of_mem_input
    refine ofTokens_congr (input_append_eof hinput rfl).symm ?_
    rw [line_endMarker, endMarker_append_eof hinput rfl]
  · rw [h]
    exact ofTokens_append_eof heof before rest
  · have hposition : (stateAt tokens n).position = (input tokens).length := by
      rw [position_stateAt, Nat.min_eq_right hn]
    simp only [iterate_readNext, hposition, peek_length, true_and]
    rw [stateAt_of_length_le hn]
    rfl
  · rw [← hstatements]
    exact (Declaration.names_statementsOfAll_sublist ds).trans (identifiers_sublist htokens)

/-- In `{ var a =` with an end marker and more behind it, the expression and the brace are missing at the end. -/
example :
    let eof : Token := ⟨.eof, "5", some (.bool true), 7⟩
    let name : Token := ⟨.identifier, "a", none, 1⟩
    let tokens : List Token :=
      [.bare .leftBrace, .bare .varKw, name, .bare .equal, eof, .bare .semicolon, .bare .rightBrace]
    (ofTokens tokens).statements = [] ∧
      (ofTokens tokens).errors =
        [⟨7, .atEnd, "Expect expression."⟩, ⟨7, .atEnd, Complaint.expectClosingBrace.text⟩] :=
  ⟨rfl, rfl⟩

end Parsed
end BlockScript
