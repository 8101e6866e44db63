import BlockScript.Proofs.LexicalRules

/-!
# The texts of literals and names

The smallest expressions are literals and names. Their texts start differently: a string with a quote, a
number with a digit or with a sign and a digit, and a name with a letter. So each of them is known by its
text, down to the bits of a number.
-/
namespace BlockScript

/-! ### Signed numbers -/

namespace BinaryNumber

/-- The double with the given sign whose magnitude has the pattern `b`. -/
def ofParts (negative : Bool) (b : Nat) : Float :=
  Float.ofBits (.ofNat (if negative then signBit + b else b))

theorem ofParts_ofFloat (x : Float) : ofParts (ofFloat x).1 (ofFloat x).2 = x := by
  have hx : x.toBits.toNat < 2 ^ 64 := x.toBits.toNat_lt
  have hbits : (if (ofFloat x).1 then signBit + (ofFloat x).2 else (ofFloat x).2) = x.toBits.toNat := by
    rw [ofFloat, signBit_eq]
    by_cases hsign : 2 ^ 63 ≤ x.toBits.toNat
    · simp only [hsign, decide_true, if_true]
      omega
    · simp only [hsign, decide_false, Bool.false_eq_true, if_false]
      omega
  rw [ofParts, hbits, UInt64.ofNat_toNat, Float.ofBits_toBits]

end BinaryNumber

/-- Numbers are equal just if they have the same bits: the two zeros are not. -/
theorem Value.number_eq_iff (x y : Float) : Value.number x = .number y ↔ x.toBits = y.toBits := by
  refine ⟨fun h => congrArg Float.toBits (Value.number.inj h), fun h => ?_⟩
  rw [← Float.ofBits_toBits x, h, Float.ofBits_toBits]

namespace DecimalText
open BinaryNumber
/-- The magnitude is read off its text. -/
theorem ofFloat_read_positional {b : Nat} (h : b < infinity) :
    ofFloat (read (positional (shortest b))) = (false, b) := by
  rw [read_positional (Nat.le_of_lt h) (readsBack_shortest b), ofFloat_toFloat (Nat.le_of_lt h)]

/-- The text of a magnitude is a digit and then digits, among which there may be a point. -/
theorem positional_eq_cons (n : Nat) :
    ∃ c cs, positional n = c :: cs ∧ c.isDigit = true ∧ ∀ d ∈ cs, d.isDigit = true ∨ d = '.' := by
  obtain ⟨whole, fraction, htext, hne, hwhole, hfraction⟩ := positional_eq_numeral n
  obtain ⟨c, cs, rfl⟩ := List.exists_cons_of_ne_nil hne
  obtain ⟨hc, hcs⟩ := List.forall_mem_cons.1 hwhole
  rw [htext, numeral_cons]
  refine ⟨c, _, rfl, hc, fun d hd => ?_⟩
  cases fraction with
  | nil => exact .inl (hcs d hd)
  | cons f fs =>
    rcases List.mem_append.1 hd with hd | hd
    · exact .inl (hcs d hd)
    · exact (List.mem_cons.1 hd).symm.imp_left (hfraction d)

end DecimalText

/-! ### Atoms -/

/-- An identifier is a letter and then letters and digits, but none of the reserved words. -/
theorem Token.Kind.letters_of_identifier {cs : List Char} (h : Matches identifier cs) :
    ∃ d ds, cs = d :: ds ∧ Piece.isNameStart d = true ∧ (∀ c ∈ ds, Piece.isNamePart c = true) ∧
      String.ofList cs ∉ keywords.map Prod.fst := by
  cases h with
  | punctuation h => exact absurd (by decide) (notMem_unlisted_of_punctuation h)
  | keyword h => exact absurd (by decide) (notMem_unlisted_of_keyword h)
  | identifier hc hcs hkeyword => exact ⟨_, _, rfl, hc, hcs, hkeyword⟩

/-- Finite numbers, and strings without a quote. -/
def Value.IsLegible : Value → Prop
  | .nil | .bool _ => True
  | .number x => (BinaryNumber.ofFloat x).2 < BinaryNumber.infinity
  | .string s => '"' ∉ s.toList

/-- An expression without operands. -/
inductive Atom where
  | literal (value : Value)
  | name (lexeme : String)

namespace Atom

def text : Atom → String
  | literal v => v.quoted
  | name lexeme => lexeme

def IsLegible : Atom → Prop
  | literal v => v.IsLegible
  | name lexeme => Token.Kind.identifier.Matches lexeme.toList

/-- The atom that a word stands for. -/
def ofWord (word : String) : Atom :=
  if word = "nil" then literal .nil
  else if word = "true" then literal (.bool true)
  else if word = "false" then literal (.bool false)
  else name word

/-- The atom with the text. -/
def ofText (text : String) : Atom :=
  match text.toList with
  | '"' :: cs => literal (.string (String.ofList cs.dropLast))
  | '-' :: cs => literal (.number (BinaryNumber.ofParts true (BinaryNumber.ofFloat (DecimalText.read cs)).2))
  | c :: cs => if c.isDigit then literal (.number (DecimalText.read (c :: cs))) else ofWord text
  | [] => ofWord text

section Characters
variable {text : String} {c : Char} {cs : List Char}

theorem ofText_of_isDigit (h : text.toList = c :: cs) (hc : c.isDigit = true) :
    ofText text = literal (.number (DecimalText.read (c :: cs))) := by
  unfold ofText
  rw [h]
  split
  · next heq =>
    obtain ⟨rfl, -⟩ := List.cons.inj heq
    exact absurd hc (by decide)
  · next heq =>
    obtain ⟨rfl, -⟩ := List.cons.inj heq
    exact absurd hc (by decide)
  · next heq =>
    obtain ⟨rfl, rfl⟩ := List.cons.inj heq
    rw [if_pos hc]
  · next heq => cases heq

theorem ofText_of_isNameStart (h : text.toList = c :: cs) (hc : Piece.isNameStart c = true) :
    ofText text = ofWord text := by
  unfold ofText
  rw [h]
  split
  · next heq =>
    obtain ⟨rfl, -⟩ := List.cons.inj heq
    exact absurd hc (by decide)
  · next heq =>
    obtain ⟨rfl, -⟩ := List.cons.inj heq
    exact absurd hc (by decide)
  · next heq =>
    obtain ⟨rfl, rfl⟩ := List.cons.inj heq
    rw [Piece.isDigit_of_isNameStart hc, if_neg Bool.false_ne_true]
  · rfl

end Characters

/-- A legible atom is known by its text. -/
theorem ofText_text {a : Atom} (h : a.IsLegible) : ofText a.text = a := by
  match a, h with
  | literal .nil, _ => rfl
  | literal (.bool true), _ => rfl
  | literal (.bool false), _ => rfl
  | literal (.string s), _ =>
    have htext : (literal (.string s)).text.toList = '"' :: (s.toList ++ ['"']) := by
      simp [text, Value.quoted]
    simp only [ofText, htext]
    rw [List.dropLast_concat, String.ofList_toList]
  | literal (.number x), h =>
    have htext : (literal (.number x)).text.toList = DecimalText.write x := by
      simp [text, Value.quoted, Value.text]
    have hmagnitude := DecimalText.ofFloat_read_positional h
    rw [DecimalText.write_of_finite h] at htext
    have hx := BinaryNumber.ofParts_ofFloat x
    -- the magnitude is read from the digits alone, and the sign is put back
    by_cases hsign : (BinaryNumber.ofFloat x).1 = true
    · rw [if_pos hsign] at htext
      simp only [ofText, htext, hmagnitude]
      rw [← hsign, hx]
    · rw [if_neg hsign] at htext
      obtain ⟨c, cs, hcs, hc, -⟩ := DecimalText.positional_eq_cons (DecimalText.shortest (BinaryNumber.ofFloat x).2)
      rw [ofText_of_isDigit (htext.trans hcs) hc, ← hcs]
      have hread : BinaryNumber.ofFloat x = (false, (BinaryNumber.ofFloat x).2) := by
        rw [← Bool.eq_false_of_not_eq_true hsign]
      rw [← DecimalText.write_of_ofFloat hread h, DecimalText.read_write hread h]
  | name lexeme, h =>
    obtain ⟨c, cs, hcs, hc, -, hkeyword⟩ := Token.Kind.letters_of_identifier h
    rw [String.ofList_toList] at hkeyword
    have hne {word : String} (hword : word ∈ Token.Kind.keywords.map Prod.fst) : lexeme ≠ word := by
      rintro rfl
      exact hkeyword hword
    have hnil : lexeme ≠ "nil" := hne (by decide)
    have htrue : lexeme ≠ "true" := hne (by decide)
    have hfalse : lexeme ≠ "false" := hne (by decide)
    rw [text, ofText_of_isNameStart hcs hc, ofWord, if_neg hnil, if_neg htrue, if_neg hfalse]

/-! ### Characters of atoms -/

/-- The characters of numbers and words. -/
def isPart (c : Char) : Bool := Piece.isNamePart c || c == '.' || c == '-'

/-- Whether a text has only characters of numbers and words and is more than a sign. -/
structure IsPlain (cs : List Char) : Prop where
  ne_nil : cs ≠ []
  ne_sign : cs ≠ ['-']
  parts : ∀ c ∈ cs, isPart c = true

section Characters
variable {c : Char} {cs : List Char}

theorem isPart_of_isNamePart (h : Piece.isNamePart c = true) : isPart c = true := by
  rw [isPart, h, Bool.true_or, Bool.true_or]

theorem isPart_of_isDigit (h : c.isDigit = true) : isPart c = true :=
  isPart_of_isNamePart (Piece.isNamePart_of_isDigit h)

theorem isPlain_word (hc : Piece.isNameStart c = true) (hcs : ∀ d ∈ cs, Piece.isNamePart d = true) :
    IsPlain (c :: cs) where
  ne_nil := List.cons_ne_nil c cs
  ne_sign h := by
    obtain ⟨rfl, -⟩ := List.cons.inj h
    exact absurd hc (by decide)
  parts := List.forall_mem_cons.2 ⟨isPart_of_isNamePart (Piece.isNamePart_of_isNameStart hc),
    fun d hd => isPart_of_isNamePart (hcs d hd)⟩

theorem isPlain_write {x : Float} (h : (BinaryNumber.ofFloat x).2 < BinaryNumber.infinity) :
    IsPlain (DecimalText.write x) := by
  obtain ⟨c, cs, hcs, hc, hrest⟩ :=
    DecimalText.positional_eq_cons (DecimalText.shortest (BinaryNumber.ofFloat x).2)
  have hparts : ∀ d ∈ c :: cs, isPart d = true := by
    refine List.forall_mem_cons.2 ⟨isPart_of_isDigit hc, fun d hd => ?_⟩
    rcases hrest d hd with hd | rfl
    · exact isPart_of_isDigit hd
    · rfl
  rw [DecimalText.write_of_finite h, hcs]
  split
  · exact ⟨List.cons_ne_nil _ _, by simp, List.forall_mem_cons.2 ⟨rfl, hparts⟩⟩
  · refine ⟨List.cons_ne_nil c cs, fun hsign => ?_, hparts⟩
    obtain ⟨rfl, -⟩ := List.cons.inj hsign
    exact absurd hc (by decide)

end Characters

/-- The text of an atom is plain, or it is a string between quotes. -/
theorem text_cases {a : Atom} (h : a.IsLegible) :
    IsPlain a.text.toList ∨ ∃ cs, '"' ∉ cs ∧ a.text.toList = '"' :: (cs ++ ['"']) := by
  match a, h with
  | literal .nil, _ => exact .inl (@isPlain_word 'n' ['i', 'l'] rfl (List.all_eq_true.1 rfl))
  | literal (.bool true), _ => exact .inl (@isPlain_word 't' ['r', 'u', 'e'] rfl (List.all_eq_true.1 rfl))
  | literal (.bool false), _ => exact .inl (@isPlain_word 'f' ['a', 'l', 's', 'e'] rfl (List.all_eq_true.1 rfl))
  | literal (.string s), h => exact .inr ⟨s.toList, h, by simp [text, Value.quoted]⟩
  | literal (.number x), h =>
    left
    rw [text, Value.quoted, Value.text, String.toList_ofList]
    · exact isPlain_write h
    · rintro s hs
      cases hs
  | name lexeme, h =>
    obtain ⟨c, cs, hcs, hc, hrest, -⟩ := Token.Kind.letters_of_identifier h
    left
    rw [text, hcs]
    exact isPlain_word hc hrest

end Atom

/-! ### Rows of words -/

/-- Words are known by their row if the first word of any row is. -/
theorem eq_of_flatMap_eq {W : Type} {IsWord : W → Prop} {spelling : W → List Char} {ws ws' : List W}
    (hne : ∀ w, IsWord w → spelling w ≠ [])
    (hfirst : ∀ (w w' : W) (rest rest' : List W), IsWord w → IsWord w' →
      spelling w ++ rest.flatMap spelling = spelling w' ++ rest'.flatMap spelling → w = w')
    (h : ∀ w ∈ ws, IsWord w) (h' : ∀ w ∈ ws', IsWord w)
    (heq : ws.flatMap spelling = ws'.flatMap spelling) : ws = ws' := by
  induction ws generalizing ws' with
  | nil =>
    cases ws' with
    | nil => rfl
    | cons w' rest' =>
      rw [List.flatMap_nil, List.flatMap_cons] at heq
      exact absurd (List.append_eq_nil_iff.1 heq.symm).1 (hne w' (h' w' List.mem_cons_self))
  | cons w rest ih =>
    obtain ⟨hw, hrest⟩ := List.forall_mem_cons.1 h
    cases ws' with
    | nil =>
      rw [List.flatMap_nil, List.flatMap_cons] at heq
      exact absurd (List.append_eq_nil_iff.1 heq).1 (hne w hw)
    | cons w' rest' =>
      obtain ⟨hw', hrest'⟩ := List.forall_mem_cons.1 h'
      rw [List.flatMap_cons, List.flatMap_cons] at heq
      obtain rfl := hfirst w w' rest rest' hw hw' heq
      rw [ih hrest hrest' (List.append_cancel_left heq)]

/-! ### Expressions -/

/-- A name with nothing but its lexeme. -/
def Token.ofName (lexeme : String) : Token := ⟨.identifier, lexeme, none, 0⟩

namespace Expr

/-- Whether all literals and names of the expression are legible. -/
def IsLegible : Expr → Prop
  | .literal v => v.IsLegible
  | .grouping e => e.IsLegible
  | .unary _ _ e => e.IsLegible
  | .binary l _ _ r => l.IsLegible ∧ r.IsLegible
  | .var name => Token.Kind.Matches .identifier name.lexeme.toList
  | .assign name e => Token.Kind.Matches .identifier name.lexeme.toList ∧ e.IsLegible

/-- The expression with all line numbers set to zero and with nothing but the lexemes of its names. -/
def eraseTokens : Expr → Expr
  | .literal v => .literal v
  | .grouping e => .grouping e.eraseTokens
  | .unary op _ e => .unary op 0 e.eraseTokens
  | .binary l op _ r => .binary l.eraseTokens op 0 r.eraseTokens
  | .var name => .var (.ofName name.lexeme)
  | .assign name e => .assign (.ofName name.lexeme) e.eraseTokens

end Expr
end BlockScript
