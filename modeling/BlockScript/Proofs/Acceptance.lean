import BlockScript.Proofs.ParseHistory
import BlockScript.Proofs.Unambiguity

/-!
# Accepted programs

A list of tokens is a program just if it has a derivation without self-references in initializers and
without assignments to anything but names. It has only one, and the program is what that one derives.
-/
namespace BlockScript
open Grammar
namespace Parsed

theorem kind_endMarker (tokens : List Token) : (endMarker tokens).kind = .eof := by
  unfold endMarker
  cases hf : tokens.find? fun t => t.kind = .eof with
  | none => rfl
  | some t => simpa using List.find?_some hf

theorem program_eq_ok {p : Parsed} {statements : List Stmt} (h : p.program = .ok statements) :
    p.faults = [] ∧ p.statements = statements := by
  unfold program at h
  split at h
  · next he => exact ⟨by simpa [errors] using he, by simpa using h⟩
  · cases h

/-- Every program has a derivation. -/
theorem derivation_of_program {tokens : List Token} {statements : List Stmt}
    (h : (ofTokens tokens).program = .ok statements) :
    ∃ ds, Declaration.tokensOfAll ds = input tokens ∧ Declaration.GuardedAll ds ∧
      Declaration.AllAssignNames ds ∧ Declaration.statementsOfAll ds = statements := by
  obtain ⟨hf, hs⟩ := program_eq_ok h
  have hfold : ((input tokens).foldl ParseState.feed {}).faults = [] :=
    ParseState.faults_of_faultsAtEnd hf
  have hread := ParseState.hasRead_initial.foldl_feed (input tokens) hfold
  rw [List.nil_append] at hread
  obtain ⟨ds, ht, hd, hg, ha⟩ := hread.of_faultsAtEnd (kind_endMarker tokens) hf
  exact ⟨ds, ht, hg, ha, hd.trans hs⟩

end Parsed
end BlockScript
