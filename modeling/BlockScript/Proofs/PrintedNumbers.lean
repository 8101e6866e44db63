import BlockScript.Execution
import BlockScript.Proofs.NearestDoubles
import BlockScript.Proofs.Relayout
import BlockScript.Proofs.AtomTexts
import BlockScript.Proofs.Rereading

/-!
# Numbers are printed and read

What is printed for a finite number is a numeral, with a minus in front of it if the number has a sign. So it
is read as a literal or as the negation of one, which has the value that was printed. A literal in a source
is the double that is nearest to the decimal that its digits denote.
-/
namespace BlockScript
open BinaryNumber

/-! ### Literals -/

namespace DecimalText

/-- The number that a numeral denotes; other texts denote none. -/
inductive Denotes : List Char → ℚ → Prop where
  | numeral {whole fraction : List Char} (hne : whole ≠ []) (hw : ∀ c ∈ whole, c.isDigit = true)
      (hf : ∀ c ∈ fraction, c.isDigit = true) :
      Denotes (numeral whole fraction)
        (Nat.ofDigitChars 10 whole 0 + Nat.ofDigitChars 10 fraction 0 / 10 ^ fraction.length)

/-- The digits on both sides of the point are those of one numerator. -/
theorem ofDigitChars_append_div (whole fraction : List Char) :
    (Nat.ofDigitChars 10 (whole ++ fraction) 0 : ℚ) / tenTo fraction.length =
      Nat.ofDigitChars 10 whole 0 + Nat.ofDigitChars 10 fraction 0 / 10 ^ fraction.length := by
  have hten : (10 : ℚ) ^ fraction.length ≠ 0 := pow_ne_zero _ (by norm_num)
  rw [Nat.ofDigitChars_append, Nat.ofDigitChars_eq_ofDigitChars_zero, tenTo_eq]
  push_cast
  rw [add_div, mul_div_cancel_left₀ _ hten]

theorem Denotes.isNearest_read {text : List Char} {v : ℚ} (h : Denotes text v) :
    IsNearest (read text) v := by
  cases h with
  | @numeral whole fraction hne hw hf =>
    have hpoint : '.' ∉ whole := fun hmem => absurd (hw '.' hmem) (by decide)
    rw [read_numeral hpoint, ← ofDigitChars_append_div]
    exact isNearest_toFloat _ (tenTo_pos _)

/-- Whether a reader, which may fail on other texts, finds the nearest double in every numeral. -/
def RoundsNumerals (parse : String → Option Float) : Prop :=
  ∀ (text : String) (v : ℚ), Denotes text.toList v → ∃ x, parse text = some x ∧ IsNearest x v

theorem roundsNumerals_read : RoundsNumerals fun text => some (read text.toList) :=
  fun _ _ h => ⟨_, rfl, h.isNearest_read⟩

/-- All readers that round correctly agree. -/
theorem RoundsNumerals.parse_eq {parse : String → Option Float} (hparse : RoundsNumerals parse) {text : String}
    {v : ℚ} (h : Denotes text.toList v) : parse text = some (read text.toList) := by
  obtain ⟨x, hx, hnearest⟩ := hparse text v h
  rw [hx, hnearest.eq h.isNearest_read]

end DecimalText

theorem Token.Kind.exists_denotes_of_matches {text : List Char} (h : Matches number text) :
    ∃ v, DecimalText.Denotes text v := by
  cases h with
  | punctuation h => exact absurd (by decide) (notMem_unlisted_of_punctuation h)
  | keyword h => exact absurd (by decide) (notMem_unlisted_of_keyword h)
  | number hne hw hf => exact ⟨_, .numeral hne hw hf⟩

/-- The tokens of a source come from its text, except the end marker. -/
theorem Scanned.conforms {source : String} {t : Token} (ht : t ∈ (ofSource source).tokens)
    (hkind : t.kind ≠ .eof) : t.Conforms := by
  rcases List.mem_append.1 ht with ht | ht
  · obtain ⟨p, hp, htoken⟩ := List.mem_filterMap.1 ht
    exact Piece.conforms_of_mem_pieces hp htoken
  · obtain rfl := List.mem_singleton.1 ht
    exact absurd rfl hkind

/-! ### Printed numbers -/

/-- Whether the text is what `print` writes before the newline, whatever expression has the value, on any
output that takes everything. -/
def Value.IsPrintedAs (v : Value) (text : String) : Prop :=
  ∀ (e : Expr) (line : UInt32) (m : Machine) (scopes : Scopes), e.eval m.scopes = .ok v scopes →
    m.output.capacity = .unlimited →
    (Stmt.print e line).exec m =
      .ok () { m with scopes, output := { m.output with content := m.output.content ++ (text ++ "\n").toUTF8 } }

theorem Value.isPrintedAs_text (v : Value) : v.IsPrintedAs v.text := by
  intro e line m scopes he hm
  have hwrite := Sink.write_of_unlimited hm (v.text ++ "\n").toUTF8
  simp only [Stmt.exec, bind, EStateM.bind, Exec.evaluate, he, Exec.printLine, Sink.writeLine, hwrite]

namespace Expr

/-- A number literal, or a minus in front of one. -/
inductive IsSignedLiteral : Expr → Prop where
  | positive (x : Float) : IsSignedLiteral (.literal (.number x))
  | negative (line : UInt32) (x : Float) : IsSignedLiteral (.unary .negate line (.literal (.number x)))

/-- The expression that a number is written as. -/
def ofNumber (x : Float) : Expr :=
  let magnitude := literal (.number (toFloat (ofFloat x).2))
  if (ofFloat x).1 then .unary .negate 1 magnitude else magnitude

section Finite
variable {x : Float}

/-- The source text of a magnitude. -/
theorem literalSource_toFloat {b : Nat} (h : b < infinity) :
    literalSource (.number (toFloat b)) = String.ofList (DecimalText.positional (DecimalText.shortest b)) := by
  have hparts := ofFloat_toFloat h.le
  have hne : (ofFloat (toFloat b)).2 ≠ infinity := by
    rw [hparts]
    exact h.ne
  rw [literalSource, if_neg hne, Value.text, DecimalText.write_of_ofFloat hparts h]

theorem source_ofNumber (h : (ofFloat x).2 < infinity) : (ofNumber x).source = (Value.number x).text := by
  rw [Value.text, DecimalText.write_of_finite h, ofNumber]
  by_cases hs : (ofFloat x).1 = true
  · rw [if_pos hs, if_pos hs, source, source, literalSource_toFloat h, ← String.toList_inj]
    simp [UnaryOp.symbol]
  · rw [if_neg hs, if_neg hs, source, literalSource_toFloat h]

theorem wellShaped_ofNumber (h : (ofFloat x).2 < infinity) : (ofNumber x).WellShaped := by
  have hmagnitude : (Value.number (toFloat (ofFloat x).2)).HasLiteral := by
    rw [Value.HasLiteral, ofFloat_toFloat h.le]
    exact ⟨rfl, h.le⟩
  rw [ofNumber]
  split
  · exact ⟨rfl, hmagnitude⟩
  · exact hmagnitude

theorem onLine_ofNumber (x : Float) : (ofNumber x).OnLine 1 := by
  have hmagnitude : (literal (.number (toFloat (ofFloat x).2))).OnLine 1 := fun s hs => by cases hs
  rw [ofNumber]
  split
  · exact ⟨rfl, hmagnitude⟩
  · exact hmagnitude

theorem isSignedLiteral_ofNumber (x : Float) : (ofNumber x).IsSignedLiteral := by
  rw [ofNumber]
  split
  · exact .negative 1 _
  · exact .positive _

/-- The sign is put back by negation, also that of zero. -/
theorem neg_toFloat (hs : (ofFloat x).1 = true) (h : (ofFloat x).2 < infinity) :
    -toFloat (ofFloat x).2 = x := by
  have hmagnitude := ofFloat_toFloat h.le
  have hparts : ofFloat (-toFloat (ofFloat x).2) = ofFloat x := by
    rw [ofFloat_neg (by rw [hmagnitude]; exact h.le), hmagnitude, Bool.not_false, ← hs]
  rw [← ofParts_ofFloat (-toFloat (ofFloat x).2), hparts, ofParts_ofFloat]

theorem eval_ofNumber (h : (ofFloat x).2 < infinity) (scopes : Scopes) :
    (ofNumber x).eval scopes = .ok (.number x) scopes := by
  rw [ofNumber]
  by_cases hs : (ofFloat x).1 = true
  · have heval : (unary .negate 1 (literal (.number (toFloat (ofFloat x).2)))).eval scopes =
        .ok (.number (-toFloat (ofFloat x).2)) scopes := rfl
    rw [if_pos hs, heval, neg_toFloat hs h]
  · have hx : ofFloat x = (false, (ofFloat x).2) := by rw [← Bool.eq_false_of_not_eq_true hs]
    rw [if_neg hs, toFloat_of_ofFloat hx]
    rfl

end Finite
end Expr

/-- The text that is printed for a finite number is read as one statement, a literal or the negation of a
literal, whose value is that number again; equal doubles have the same bits, so a zero keeps its sign. And all
number tokens have a text that denotes a number, and the nearest double as their literal, infinity from half a
step beyond the finite numbers on. This is what any reader that rounds correctly finds in the text: no token is
left without a number. -/
theorem numbers_survive_text :
    (∀ x : Float, x.isFinite = true →
      ∃ text e, (Value.number x).IsPrintedAs text ∧ readProgram (text ++ ";") = .ok [.expr e] ∧
        e.IsSignedLiteral ∧ ∀ scopes, e.eval scopes = .ok (.number x) scopes) ∧
    ∀ (source : String), ∀ t ∈ (Scanned.ofSource source).tokens, t.kind = .number →
      ∃ v x, DecimalText.Denotes t.lexeme.toList v ∧ t.literal = some (.number x) ∧ IsNearest x v ∧
        (x = toFloat infinity ↔ 2 ^ 1024 - 2 ^ 970 ≤ v) ∧
        ∀ parse, DecimalText.RoundsNumerals parse → parse t.lexeme = some x := by
  constructor
  · intro x hx
    rw [isFinite_iff] at hx
    obtain ⟨e, hread, -, hexact⟩ := (Expr.wellShaped_ofNumber hx).readsBack
    rw [hexact (Expr.onLine_ofNumber x), Expr.source_ofNumber hx] at hread
    exact ⟨_, _, Value.isPrintedAs_text _, hread, Expr.isSignedLiteral_ofNumber x, Expr.eval_ofNumber hx⟩
  · intro source t ht hkind
    obtain ⟨hmatches, hliteral⟩ := Scanned.conforms ht (by simp [hkind])
    rw [hkind] at hmatches hliteral
    obtain ⟨v, hv⟩ := Token.Kind.exists_denotes_of_matches hmatches
    have hnearest := hv.isNearest_read
    exact ⟨v, _, hv, hliteral, hnearest, hnearest.eq_infinity_iff, fun parse hparse => hparse.parse_eq hv⟩

/-- The zero with a sign, and a number between two doubles. -/
theorem numbers_survive_text_negative_zero :
    (∃ text e, (Value.number (ofParts true 0)).IsPrintedAs text ∧ readProgram (text ++ ";") = .ok [.expr e] ∧
      e.IsSignedLiteral ∧ ∀ scopes, e.eval scopes = .ok (.number (ofParts true 0)) scopes) ∧
    ∃ t ∈ (Scanned.ofSource "0.1;").tokens, t.kind = .number ∧
      ∃ v x, DecimalText.Denotes t.lexeme.toList v ∧ t.literal = some (.number x) ∧ IsNearest x v ∧
        (x = toFloat infinity ↔ 2 ^ 1024 - 2 ^ 970 ≤ v) ∧
        some (DecimalText.read t.lexeme.toList) = some x := by
  have hkinds : (Scanned.ofSource "0.1;").tokens.map Token.kind = [.number, .semicolon, .eof] := by
    decide +kernel
  have hnumber : Token.Kind.number ∈ (Scanned.ofSource "0.1;").tokens.map Token.kind := by
    rw [hkinds]
    exact List.mem_cons_self
  obtain ⟨t, ht, hkind⟩ := List.mem_map.1 hnumber
  obtain ⟨v, x, hv, hliteral, hnearest, hinfinity, hparse⟩ := numbers_survive_text.2 _ t ht hkind
  exact ⟨numbers_survive_text.1 _ (by decide +kernel), t, ht, hkind, v, x, hv, hliteral, hnearest, hinfinity,
    hparse _ DecimalText.roundsNumerals_read⟩

end BlockScript
