import BlockScript.Proofs.AtomTexts

/-!
# Reverse Polish text can be read

Reverse Polish text is a row of words. A string may contain anything but a quote, so a word that starts with
a quote ends with the next one, and any other word ends before the next space. The words are instructions
for a stack of expressions, which rebuild the expression without its groupings.
-/
namespace BlockScript

/-! ### Words -/

/-- A word of reverse Polish text; the word `=` stores the value under the name in front of it. -/
inductive PolishWord where
  | atom (a : Atom)
  | unary (op : UnaryOp)
  | binary (op : BinaryOp)
  | store

namespace PolishWord

def text : PolishWord → String
  | atom a => a.text
  | unary op => Expr.polishSymbol op
  | binary op => op.symbol
  | store => "="

def IsLegible : PolishWord → Prop
  | atom a => a.IsLegible
  | unary _ | binary _ | store => True

def operators : List PolishWord :=
  [unary .not, unary .negate, binary .equal, binary .notEqual, binary .greater, binary .greaterEqual,
   binary .less, binary .lessEqual, binary .add, binary .subtract, binary .multiply, binary .divide, store]

/-- The word with the text. -/
def ofText (text : String) : PolishWord :=
  (operators.find? fun w => w.text == text).getD (atom (.ofText text))

variable {w : PolishWord} {a : Atom} {rest : List Char}

theorem text_ne_of_mem_operators (hw : w ∈ operators) (ha : a.IsLegible) : w.text ≠ a.text := by
  have hparts : ∀ w ∈ operators, w.text.toList = ['-'] ∨ w.text.toList.all Atom.isPart = false := by decide
  have hquote : ∀ w ∈ operators, w.text.toList.head? ≠ some '"' := by decide
  intro htext
  -- every operator but `-` has a character that numbers and words do not have, and a number is more than a sign
  rcases Atom.text_cases ha with hplain | ⟨cs, -, hcs⟩
  · rw [← htext] at hplain
    rcases hparts w hw with hsign | hparts
    · exact hplain.ne_sign hsign
    · rw [List.all_eq_true.2 hplain.parts] at hparts
      cases hparts
  · rw [← htext] at hcs
    exact hquote w hw (by rw [hcs, List.head?_cons])

theorem ofText_text (h : w.IsLegible) : ofText w.text = w := by
  cases w with
  | atom a =>
    have hnone : (operators.find? fun w => w.text == a.text) = none := by
      refine List.find?_eq_none.2 fun w hw => ?_
      rw [beq_iff_eq]
      exact text_ne_of_mem_operators hw h
    rw [text, ofText, hnone, Option.getD_none, Atom.ofText_text h]
  | unary op => cases op <;> rfl
  | binary op => cases op <;> rfl
  | store => rfl

/-! ### Where a word ends -/

/-- The first word of a text. -/
def firstOf : List Char → List Char
  | '"' :: cs => '"' :: (cs.takeWhile (· != '"') ++ ['"'])
  | cs => cs.takeWhile (· != ' ')

theorem firstOf_string {cs : List Char} (h : '"' ∉ cs) (rest : List Char) :
    firstOf ('"' :: (cs ++ ['"']) ++ rest) = '"' :: (cs ++ ['"']) := by
  rw [List.cons_append, List.append_assoc, firstOf, Piece.takeWhile_ne h (by simp)]

theorem firstOf_append {cs : List Char} (hquote : cs.head? ≠ some '"') (hne : cs ≠ []) (hspace : ' ' ∉ cs)
    (hrest : ∀ c ∈ rest.head?, c = ' ') : firstOf (cs ++ rest) = cs := by
  unfold firstOf
  split
  · next heq =>
    obtain ⟨c, cs, rfl⟩ := List.exists_cons_of_ne_nil hne
    obtain ⟨rfl, -⟩ := List.cons.inj heq
    exact absurd rfl hquote
  · exact Piece.takeWhile_ne hspace hrest

theorem firstOf_text (h : w.IsLegible) (hrest : ∀ c ∈ rest.head?, c = ' ') :
    firstOf (w.text.toList ++ rest) = w.text.toList := by
  have hoperators : ∀ w ∈ operators,
      w.text.toList.head? ≠ some '"' ∧ w.text.toList ≠ [] ∧ ' ' ∉ w.text.toList := by decide
  have hoperator (hw : w ∈ operators) : firstOf (w.text.toList ++ rest) = w.text.toList := by
    obtain ⟨hquote, hne, hspace⟩ := hoperators w hw
    exact firstOf_append hquote hne hspace hrest
  cases w with
  | atom a =>
    rcases Atom.text_cases h with hplain | ⟨cs, hcs, htext⟩
    · refine firstOf_append (fun hquote => ?_) hplain.ne_nil (fun hspace => ?_) hrest
      · exact absurd (hplain.parts '"' (List.mem_of_head? hquote)) (by decide)
      · exact absurd (hplain.parts ' ' hspace) (by decide)
    · rw [text, htext, firstOf_string hcs]
  | unary op => exact hoperator (by cases op <;> simp [operators])
  | binary op => exact hoperator (by cases op <;> simp [operators])
  | store => exact hoperator (by simp [operators])

/-- The words in a row, each with a space in front. -/
def row : List PolishWord → List Char
  | [] => []
  | w :: rest => ' ' :: (w.text.toList ++ row rest)

theorem row_eq_flatMap (ws : List PolishWord) : row ws = ws.flatMap fun w => ' ' :: w.text.toList := by
  induction ws with
  | nil => rfl
  | cons w rest ih =>
    rw [row, ih, List.flatMap_cons]
    rfl

@[simp] theorem row_append (ws ws' : List PolishWord) : row (ws ++ ws') = row ws ++ row ws' := by
  rw [row_eq_flatMap, List.flatMap_append, ← row_eq_flatMap, ← row_eq_flatMap]

theorem head?_row (ws : List PolishWord) : ∀ c ∈ (row ws).head?, c = ' ' := by
  cases ws <;> simp [row]

/-- Legible words can be told from their row. -/
theorem eq_of_row_eq {ws ws' : List PolishWord} (h : ∀ w ∈ ws, w.IsLegible) (h' : ∀ w ∈ ws', w.IsLegible)
    (heq : row ws = row ws') : ws = ws' := by
  rw [row_eq_flatMap, row_eq_flatMap] at heq
  refine eq_of_flatMap_eq (fun w _ => List.cons_ne_nil _ _) (fun w w' rest rest' hw hw' hrow => ?_) h h' heq
  rw [← row_eq_flatMap, ← row_eq_flatMap] at hrow
  -- the first word is that of both rows
  have hrow : w.text.toList ++ row rest = w'.text.toList ++ row rest' := (List.cons.inj hrow).2
  have htext : w.text.toList = w'.text.toList := by
    rw [← firstOf_text hw (head?_row rest), hrow, firstOf_text hw' (head?_row rest')]
  rw [← ofText_text hw, String.toList_inj.1 htext, ofText_text hw']

/-! ### The stack of expressions -/

/-- What a word does to the stack: operators replace their operands; `none` if these are not there. -/
def act : PolishWord → List Expr → Option (List Expr)
  | atom (.literal v), stack => some (.literal v :: stack)
  | atom (.name lexeme), stack => some (.var (.ofName lexeme) :: stack)
  | unary op, e :: stack => some (.unary op 0 e :: stack)
  | binary op, r :: l :: stack => some (.binary l op 0 r :: stack)
  | store, .var name :: e :: stack => some (.assign name e :: stack)
  | _, _ => none

def actAll : List PolishWord → List Expr → Option (List Expr)
  | [], stack => some stack
  | w :: rest, stack => (w.act stack).bind (actAll rest)

end PolishWord

/-! ### Expressions -/

namespace Expr
open PolishWord
variable {e e' : Expr}

/-- The words of an expression. -/
def polishWords : Expr → List PolishWord
  | .literal v => [.atom (.literal v)]
  | .grouping e => e.polishWords
  | .unary op _ e => e.polishWords ++ [.unary op]
  | .binary l op _ r => l.polishWords ++ r.polishWords ++ [.binary op]
  | .var name => [.atom (.name name.lexeme)]
  | .assign name e => e.polishWords ++ [.atom (.name name.lexeme), .store]

/-- The expression with each grouping replaced by what is in it. -/
def eraseGroupings : Expr → Expr
  | .literal v => .literal v
  | .grouping e => e.eraseGroupings
  | .unary op line e => .unary op line e.eraseGroupings
  | .binary l op line r => .binary l.eraseGroupings op line r.eraseGroupings
  | .var name => .var name
  | .assign name e => .assign name e.eraseGroupings

theorem toList_reversePolish (e : Expr) : ' ' :: e.reversePolish.toList = row e.polishWords := by
  induction e with
  | literal v => simp [reversePolish, polishWords, row, text, Atom.text]
  | grouping e ih => exact ih
  | unary op line e ih => simp [reversePolish, polishWords, row, text, ← ih]
  | binary l op line r ihl ihr => simp [reversePolish, polishWords, row, text, ← ihl, ← ihr]
  | var name => simp [reversePolish, polishWords, row, text, Atom.text]
  | assign name e ih => simp [reversePolish, polishWords, row, text, Atom.text, ← ih]

theorem isLegible_polishWords (h : e.IsLegible) : ∀ w ∈ e.polishWords, w.IsLegible := by
  induction e with
  | literal v => exact List.forall_mem_singleton.2 h
  | grouping e ih => exact ih h
  | unary op line e ih => exact List.forall_mem_append.2 ⟨ih h, List.forall_mem_singleton.2 trivial⟩
  | binary l op line r ihl ihr =>
    exact List.forall_mem_append.2
      ⟨List.forall_mem_append.2 ⟨ihl h.1, ihr h.2⟩, List.forall_mem_singleton.2 trivial⟩
  | var name => exact List.forall_mem_singleton.2 h
  | assign name e ih =>
    exact List.forall_mem_append.2
      ⟨ih h.2, List.forall_mem_cons.2 ⟨h.1, List.forall_mem_singleton.2 trivial⟩⟩

/-- The words of an expression put it on the stack. -/
theorem actAll_polishWords_append (e : Expr) (rest : List PolishWord) (stack : List Expr) :
    actAll (e.polishWords ++ rest) stack = actAll rest (e.eraseGroupings.eraseTokens :: stack) := by
  induction e generalizing rest stack with
  | literal v => rfl
  | grouping e ih => exact ih rest stack
  | unary op line e ih =>
    rw [polishWords, List.append_assoc, ih]
    rfl
  | binary l op line r ihl ihr =>
    rw [polishWords, List.append_assoc, List.append_assoc, ihl, ihr]
    rfl
  | var name => rfl
  | assign name e ih =>
    rw [polishWords, List.append_assoc, ih]
    rfl

/-- Lines, tokens and groupings leave no trace in the words. -/
theorem polishWords_erase (e : Expr) : e.eraseGroupings.eraseTokens.polishWords = e.polishWords := by
  induction e with
  | literal v => rfl
  | grouping e ih => exact ih
  | unary op line e ih => rw [eraseGroupings, eraseTokens, polishWords, ih, polishWords]
  | binary l op line r ihl ihr => rw [eraseGroupings, eraseTokens, polishWords, ihl, ihr, polishWords]
  | var name => rfl
  | assign name e ih =>
    rw [eraseGroupings, eraseTokens, polishWords, ih, polishWords]
    rfl

theorem polishWords_eq_iff (e e' : Expr) :
    e.polishWords = e'.polishWords ↔ e.eraseGroupings.eraseTokens = e'.eraseGroupings.eraseTokens := by
  constructor
  · intro hwords
    have h := actAll_polishWords_append e [] []
    have h' := actAll_polishWords_append e' [] []
    rw [hwords, h'] at h
    exact (List.cons.inj (Option.some.inj h)).1.symm
  · intro herased
    rw [← polishWords_erase e, herased, polishWords_erase e']

/-- Two expressions have the same reverse Polish text just if they are equal up to groupings, lines and
everything about names but their lexemes. Numbers are equal if their bits are. -/
theorem reversePolish_eq_iff (h : e.IsLegible) (h' : e'.IsLegible) :
    e.reversePolish = e'.reversePolish ↔
      e.eraseGroupings.eraseTokens = e'.eraseGroupings.eraseTokens := by
  rw [← polishWords_eq_iff]
  constructor
  · intro htext
    refine eq_of_row_eq (isLegible_polishWords h) (isLegible_polishWords h') ?_
    rw [← toList_reversePolish e, htext, toList_reversePolish e']
  · intro hwords
    have hrow := toList_reversePolish e
    rw [hwords, ← toList_reversePolish e'] at hrow
    exact String.toList_inj.1 (List.cons.inj hrow).2

/-- Parentheses and line numbers do not show in `"b - c" a = -0 -`, but the sign of the zero does. -/
theorem reversePolish_eq_iff_of_zeros :
    let difference (left : Expr) (line : UInt32) (x : Float) := binary left .subtract line (.literal (.number x))
    let operand := assign (.ofName "a") (.literal (.string "b - c"))
    (difference (grouping operand) 1 (-0.0)).reversePolish = (difference operand 2 (-0.0)).reversePolish ∧
      (difference operand 1 0.0).reversePolish ≠ (difference operand 1 (-0.0)).reversePolish := by
  intro difference operand
  have hname : Token.Kind.Matches .identifier ['a'] := .identifier rfl (by simp) (by decide)
  have hoperand : operand.IsLegible := ⟨hname, show '"' ∉ "b - c".toList by decide⟩
  have hzero : (Value.number 0.0).IsLegible := show (BinaryNumber.ofFloat 0.0).2 < _ by decide +kernel
  have hminus : (Value.number (-0.0)).IsLegible := show (BinaryNumber.ofFloat (-0.0)).2 < _ by decide +kernel
  have hbits : Value.number 0.0 ≠ .number (-0.0) := by
    rw [Ne, Value.number_eq_iff]
    decide +kernel
  have hdifference (line : UInt32) : (difference operand line (-0.0)).IsLegible := ⟨hoperand, hminus⟩
  have hgrouped : (difference (grouping operand) 1 (-0.0)).IsLegible := ⟨hoperand, hminus⟩
  have hpositive : (difference operand 1 0.0).IsLegible := ⟨hoperand, hzero⟩
  refine ⟨(reversePolish_eq_iff hgrouped (hdifference 2)).2 rfl, fun htext => hbits ?_⟩
  have herased := (reversePolish_eq_iff hpositive (hdifference 1)).1 htext
  exact Expr.literal.inj (Expr.binary.inj herased).2.2.2

end Expr
end BlockScript
