import BlockScript.Rendering
import BlockScript.Proofs.NumberText
import BlockScript.Proofs.SourceReading

/-!
# Lexemes

What the scanned tokens of each class look like, and that such a text is scanned as that token when a
separating character follows it.
-/
namespace BlockScript

/-- A name as it is scanned. -/
structure Token.IsName (t : Token) : Prop where
  kind : t.kind = .identifier
  literal : t.literal = none
  not_keyword : t.lexeme ∉ Token.Kind.keywords.map Prod.fst
  letters : ∃ c cs, t.lexeme.toList = c :: cs ∧ Piece.isNameStart c = true ∧
    ∀ d ∈ cs, Piece.isNamePart d = true

/-- Whether there is a literal for the value: negative numbers, NaN and strings with a quote have none. -/
def Value.HasLiteral : Value → Prop
  | .nil | .bool _ => True
  | .number x => (BinaryNumber.ofFloat x).1 = false ∧ (BinaryNumber.ofFloat x).2 ≤ BinaryNumber.infinity
  | .string s => '"' ∉ s.toList

/-- What holds of every scanned token that can stand in an expression. -/
structure Token.IsLexeme (t : Token) : Prop where
  isName : t.kind = .identifier → t.IsName
  hasLiteral : ∀ v, t.constant? = some v → v.HasLiteral

namespace Token.Kind

theorem ofWord_eq_identifier_iff (word : String) :
    ofWord word = .identifier ↔ word ∉ keywords.map Prod.fst := by
  rw [ofWord]
  cases hl : keywords.lookup word with
  | none =>
    have h := List.lookup_eq_none_iff.1 hl
    simp only [Option.getD_none, true_iff]
    intro hmem
    obtain ⟨entry, hentry, rfl⟩ := List.mem_map.1 hmem
    simpa using h entry hentry
  | some kind =>
    obtain ⟨before, after, hmem, -⟩ := List.lookup_eq_some_iff.1 hl
    have hentry : (word, kind) ∈ keywords := by
      rw [hmem]
      simp
    have hkinds : ∀ entry ∈ keywords, entry.2 ≠ .identifier := by decide
    have hkind : kind ≠ .identifier := hkinds (word, kind) hentry
    simp only [Option.getD_some, hkind, false_iff, Classical.not_not]
    exact List.mem_map.2 ⟨_, hentry, rfl⟩

end Token.Kind

namespace Piece
variable {c : Char} {cs rest : List Char}

/-! ### What is scanned -/

theorem token?_eq_some_iff {p : Piece} {t : Token} :
    p.token? = some t ↔
      ∃ kind, p.role = .token kind ∧ t = ⟨kind, String.ofList p.text, kind.literal? p.text, p.line⟩ := by
  rw [token?]
  split
  · next kind hrole => simp [hrole, eq_comm]
  · next hrole =>
    simp only [reduceCtorEq, false_iff, not_exists, not_and]
    exact fun kind hkind => absurd hkind (hrole kind)

theorem take_quoted (h : (cs.takeWhile (· != '"')).length < cs.length) :
    cs.take ((cs.takeWhile (· != '"')).length + 1) = cs.takeWhile (· != '"') ++ ['"'] := by
  induction cs with
  | nil => cases h
  | cons c cs ih =>
    by_cases hc : c = '"'
    · simp [hc]
    · simp only [List.takeWhile_cons, bne_iff_ne, ne_eq, hc, not_false_eq_true, if_true,
        List.length_cons, Nat.add_lt_add_iff_right] at h ⊢
      rw [List.take_succ_cons, ih h, List.cons_append]

theorem take_takeWhile (p : Char → Bool) (cs : List Char) :
    cs.take (cs.takeWhile p).length = cs.takeWhile p :=
  (List.prefix_iff_eq_take.1 (List.takeWhile_prefix p)).symm

theorem of_mem_takeWhile {p : Char → Bool} (h : c ∈ cs.takeWhile p) : p c = true :=
  List.all_eq_true.1 List.all_takeWhile c h

theorem newlines_eq_zero (h : '\n' ∉ cs) : newlines cs = 0 := by
  rw [newlines, List.count_eq_zero_of_not_mem h]
  rfl

theorem takeWhile_of_all {p : Char → Bool} (hcs : ∀ d ∈ cs, p d = true) : cs.takeWhile p = cs := by
  have h := @List.takeWhile_append_of_pos Char p cs [] hcs
  rwa [List.append_nil, List.takeWhile_nil, List.append_nil] at h

theorem takeWhile_eq_self {p : Char → Bool} (hcs : ∀ d ∈ cs, p d = true)
    (hr : ∀ d ∈ rest.head?, p d = false) : (cs ++ rest).takeWhile p = cs := by
  rw [takeWhile_append cs hr, takeWhile_of_all hcs]

theorem takeWhile_ne {x : Char} (h : x ∉ cs) (hr : ∀ c ∈ rest.head?, c = x) :
    (cs ++ rest).takeWhile (· != x) = cs := by
  refine takeWhile_eq_self (fun d hd => ?_) fun d hd => ?_
  · rw [bne_iff_ne]
    rintro rfl
    exact h hd
  · rw [hr d hd, bne_self_eq_false]

end Piece

/-! ### What is scanned back -/

namespace Scans
open Piece
variable {line : UInt32} {rest : List Char}

/-- A text without line breaks leaves the line as it is. -/
theorem append_of_line {text text' : List Char} {tokens tokens' : List Token} (hn : '\n' ∉ text)
    (h : Scans line text (text' ++ rest) tokens) (h' : Scans line text' rest tokens') :
    Scans line (text ++ text') rest (tokens ++ tokens') := by
  refine h.append ?_
  rwa [newlines_eq_zero hn, UInt32.add_zero]

theorem word (c : Char) (cs : List Char) (hc : isNameStart c = true)
    (hcs : ∀ d ∈ cs, isNamePart d = true) (hr : Separates rest) :
    Scans line (c :: cs) rest
      [⟨.ofWord (String.ofList (c :: cs)), String.ofList (c :: cs),
        (Token.Kind.ofWord (String.ofList (c :: cs))).literal? (c :: cs), line⟩] := by
  have htake : (cs ++ rest).takeWhile isNamePart = cs := takeWhile_eq_self hcs fun d hd => (hr d hd).2.2.2
  have hnewline : '\n' ∉ c :: cs := by
    intro hmem
    rcases List.mem_cons.1 hmem with rfl | hmem
    · exact absurd hc (by decide)
    · exact absurd (hcs _ hmem) (by decide)
  have hextent : extent c (cs ++ rest) = (.token (.ofWord (String.ofList (c :: cs))), cs.length) := by
    rw [extent_name hc, htake]
  have hs : Scans line (c :: cs) rest _ := .token hextent
  rwa [newlines_eq_zero hnewline, UInt32.add_zero] at hs

theorem name {t : Token} (h : t.IsName) (hr : Separates rest) :
    Scans line t.lexeme.toList rest [{ t with line }] := by
  obtain ⟨hkind, hliteral, hkeyword, c, cs, hlexeme, hc, hcs⟩ := h
  have hs := @word line rest c cs hc hcs hr
  rw [← hlexeme, String.ofList_toList, (Token.Kind.ofWord_eq_identifier_iff _).2 hkeyword] at hs
  rw [show { t with line } = Token.mk .identifier t.lexeme none line by rw [hkind, hliteral]]
  exact hs

theorem string {cs : List Char} (h : '"' ∉ cs) :
    Scans line ('"' :: (cs ++ ['"'])) rest
      [⟨.string, String.ofList ('"' :: (cs ++ ['"'])), some (.string (String.ofList cs)),
        line + newlines ('"' :: (cs ++ ['"']))⟩] := by
  have htake : ((cs ++ ['"']) ++ rest).takeWhile (· != '"') = cs := by
    rw [List.append_assoc]
    exact takeWhile_ne h (by simp)
  have hextent : extent '"' ((cs ++ ['"']) ++ rest) = (.token .string, (cs ++ ['"']).length) := by
    rw [extent_string, htake, List.length_append, List.length_singleton]
    rw [htake, List.length_append, List.length_append, List.length_singleton]
    omega
  have hliteral : Token.Kind.string.literal? ('"' :: (cs ++ ['"'])) = some (.string (String.ofList cs)) := by
    simp [Token.Kind.literal?]
  rw [← hliteral]
  exact .token hextent

/-- The digits of a number, with or without a fraction. -/
theorem numberExtent_numeral {whole fraction : List Char} (hw : ∀ c ∈ whole, c.isDigit = true)
    (hf : ∀ c ∈ fraction, c.isDigit = true) (hr : Separates rest) :
    numberExtent (DecimalText.numeral whole fraction ++ rest) =
      (DecimalText.numeral whole fraction).length := by
  rw [numberExtent_append hr]
  cases fraction with
  | nil =>
    simp [DecimalText.numeral, numberExtent, takeWhile_of_all hw]
  | cons d fraction =>
    have htake : (whole ++ '.' :: d :: fraction).takeWhile Char.isDigit = whole :=
      takeWhile_eq_self hw (by simp)
    have htake' : fraction.takeWhile Char.isDigit = fraction :=
      takeWhile_of_all fun c hc => hf c (List.mem_cons_of_mem d hc)
    simp [DecimalText.numeral, numberExtent, htake, htake', hf d List.mem_cons_self]
    omega

theorem number {whole fraction : List Char} (hne : whole ≠ []) (hw : ∀ c ∈ whole, c.isDigit = true)
    (hf : ∀ c ∈ fraction, c.isDigit = true) (hr : Separates rest) :
    ∃ t, Scans line (DecimalText.numeral whole fraction) rest [t] ∧ t.kind = .number ∧
      t.literal = some (.number (DecimalText.read (DecimalText.numeral whole fraction))) := by
  obtain ⟨c, whole, rfl⟩ := List.exists_cons_of_ne_nil hne
  have hcons : DecimalText.numeral (c :: whole) fraction = c :: DecimalText.numeral whole fraction := by
    cases fraction <;> rfl
  have hextent : extent c (DecimalText.numeral whole fraction ++ rest) =
      (.token .number, (DecimalText.numeral whole fraction).length) := by
    rw [extent_number (hw c List.mem_cons_self),
      numberExtent_numeral (fun d hd => hw d (List.mem_cons_of_mem c hd)) hf hr]
  rw [hcons]
  exact ⟨_, .token hextent, rfl, rfl⟩

theorem read_overflowing : DecimalText.read ('1' :: List.replicate 309 '0') =
    BinaryNumber.toFloat BinaryNumber.infinity := by
  have hpoint : '.' ∉ '1' :: List.replicate 309 '0' := by decide
  have hnearest : BinaryNumber.nearest (10 ^ 309) 1 = BinaryNumber.infinity := by decide +kernel
  have hread := @DecimalText.read_numeral ('1' :: List.replicate 309 '0') [] hpoint
  rw [List.append_nil, Nat.ofDigitChars_cons, Nat.ofDigitChars_replicate_zero] at hread
  exact hread.trans (congrArg BinaryNumber.toFloat hnearest)

theorem overflowingLiteral_digits :
    ∃ whole, Expr.overflowingLiteral.toList = whole ∧ whole ≠ [] ∧
      (∀ c ∈ whole, c.isDigit = true) ∧
      DecimalText.read whole = BinaryNumber.toFloat BinaryNumber.infinity := by
  refine ⟨'1' :: List.replicate 309 '0', String.toList_ofList, List.cons_ne_nil _ _, ?_,
    read_overflowing⟩
  intro c hc
  rw [List.mem_cons, List.mem_replicate] at hc
  rcases hc with rfl | ⟨-, rfl⟩ <;> rfl

/-- The text of a number is a numeral that reads as the number. -/
theorem exists_numeral {x : Float} (h : (Value.number x).HasLiteral) :
    ∃ whole fraction, (Expr.literalSource (.number x)).toList = DecimalText.numeral whole fraction ∧
      whole ≠ [] ∧ (∀ c ∈ whole, c.isDigit = true) ∧ (∀ c ∈ fraction, c.isDigit = true) ∧
      DecimalText.read (DecimalText.numeral whole fraction) = x := by
  obtain ⟨hsign, hle⟩ := h
  have hx : BinaryNumber.ofFloat x = (false, (BinaryNumber.ofFloat x).2) := by rw [← hsign]
  by_cases hinf : (BinaryNumber.ofFloat x).2 = BinaryNumber.infinity
  · obtain ⟨whole, htext, hne, hdigits, hread⟩ := overflowingLiteral_digits
    rw [← hinf, BinaryNumber.toFloat_of_ofFloat hx] at hread
    refine ⟨whole, [], ?_, hne, hdigits, by simp, hread⟩
    rw [Expr.literalSource, if_pos hinf, htext, DecimalText.numeral_nil]
  · have hlt : (BinaryNumber.ofFloat x).2 < BinaryNumber.infinity := by omega
    have hwrite := DecimalText.write_of_ofFloat hx hlt
    obtain ⟨whole, fraction, htext, hne, hw, hf⟩ := DecimalText.positional_eq_numeral
      (DecimalText.shortest (BinaryNumber.ofFloat x).2)
    refine ⟨whole, fraction, ?_, hne, hw, hf, ?_⟩
    · rw [Expr.literalSource, if_neg hinf, Value.text, String.toList_ofList, hwrite, htext]
    · rw [← htext, ← hwrite, DecimalText.read_write hx hlt]

/-- A literal is scanned as a token for its value. -/
theorem literal {v : Value} (h : v.HasLiteral) (hr : Separates rest) :
    ∃ t, Scans line (Expr.literalSource v).toList rest [t] ∧ t.constant? = some v := by
  cases v with
  | nil => exact ⟨_, word 'n' ['i', 'l'] rfl (List.all_eq_true.1 rfl) hr, rfl⟩
  | bool b =>
    cases b with
    | false => exact ⟨_, word 'f' ['a', 'l', 's', 'e'] rfl (List.all_eq_true.1 rfl) hr, rfl⟩
    | true => exact ⟨_, word 't' ['r', 'u', 'e'] rfl (List.all_eq_true.1 rfl) hr, rfl⟩
  | string s =>
    have hs : Scans line ('"' :: (s.toList ++ ['"'])) rest _ := string h
    have htext : (Expr.literalSource (.string s)).toList = '"' :: (s.toList ++ ['"']) := by
      simp [Expr.literalSource, Value.quoted]
    rw [htext]
    exact ⟨_, hs, by simp [Token.constant?]⟩
  | number x =>
    obtain ⟨whole, fraction, htext, hne, hw, hf, hread⟩ := exists_numeral h
    obtain ⟨t, ht, hkind, hliteral⟩ := @number line rest whole fraction hne hw hf hr
    rw [hread] at hliteral
    rw [htext]
    exact ⟨t, ht, by rw [Token.constant?, hkind, hliteral]⟩

/-! ### Symbols -/

theorem symbol {c : Char} {cs : List Char} {kind : Token.Kind}
    (h : extent c (cs ++ rest) = (.token kind, cs.length)) (hn : '\n' ∉ c :: cs) :
    Scans line (c :: cs) rest [⟨kind, String.ofList (c :: cs), kind.literal? (c :: cs), line⟩] := by
  have hs : Scans line (c :: cs) rest _ := .token h
  rwa [newlines_eq_zero hn, UInt32.add_zero] at hs

theorem unaryOp (op : UnaryOp) (hr : rest.head? ≠ some '=') :
    ∃ t, Scans line op.symbol.toList rest [t] ∧ UnaryOp.ofKind? t.kind = some op ∧ t.line = line := by
  cases op with
  | not =>
    have hextent : extent '!' ([] ++ rest) = (.token .bang, 0) := by
      have hbang : extent '!' rest =
          if rest.head? = some '=' then (.token .bangEqual, 1) else (.token .bang, 0) := rfl
      rw [List.nil_append, hbang, if_neg hr]
    exact ⟨_, symbol hextent (by decide), rfl, rfl⟩
  | negate => exact ⟨_, @symbol line rest '-' [] .minus rfl (by decide), rfl, rfl⟩

theorem binaryOp (op : BinaryOp) :
    ∃ t, Scans line op.symbol.toList (' ' :: rest) [t] ∧ BinaryOp.ofKind? t.kind = some op ∧
      t.line = line := by
  cases op with
  | equal => exact ⟨_, @symbol line (' ' :: rest) '=' ['='] .equalEqual rfl (by decide), rfl, rfl⟩
  | notEqual => exact ⟨_, @symbol line (' ' :: rest) '!' ['='] .bangEqual rfl (by decide), rfl, rfl⟩
  | greater => exact ⟨_, @symbol line (' ' :: rest) '>' [] .greater rfl (by decide), rfl, rfl⟩
  | greaterEqual => exact ⟨_, @symbol line (' ' :: rest) '>' ['='] .greaterEqual rfl (by decide), rfl, rfl⟩
  | less => exact ⟨_, @symbol line (' ' :: rest) '<' [] .less rfl (by decide), rfl, rfl⟩
  | lessEqual => exact ⟨_, @symbol line (' ' :: rest) '<' ['='] .lessEqual rfl (by decide), rfl, rfl⟩
  | add => exact ⟨_, @symbol line (' ' :: rest) '+' [] .plus rfl (by decide), rfl, rfl⟩
  | subtract => exact ⟨_, @symbol line (' ' :: rest) '-' [] .minus rfl (by decide), rfl, rfl⟩
  | multiply => exact ⟨_, @symbol line (' ' :: rest) '*' [] .star rfl (by decide), rfl, rfl⟩
  | divide => exact ⟨_, @symbol line (' ' :: rest) '/' [] .slash rfl (by decide), rfl, rfl⟩

theorem leftParen : ∃ t : Grammar.Terminal .leftParen, Scans line ['('] rest [t.1] :=
  ⟨⟨_, rfl⟩, @symbol line rest '(' [] .leftParen rfl (by decide)⟩

theorem rightParen : ∃ t : Grammar.Terminal .rightParen, Scans line [')'] rest [t.1] :=
  ⟨⟨_, rfl⟩, @symbol line rest ')' [] .rightParen rfl (by decide)⟩

theorem semicolon : ∃ t : Grammar.Terminal .semicolon, Scans line [';'] rest [t.1] :=
  ⟨⟨_, rfl⟩, @symbol line rest ';' [] .semicolon rfl (by decide)⟩

theorem equal : ∃ t : Grammar.Terminal .equal, Scans line ['='] (' ' :: rest) [t.1] :=
  ⟨⟨_, rfl⟩, @symbol line (' ' :: rest) '=' [] .equal rfl (by decide)⟩

end Scans
end BlockScript
