import BlockScript.Proofs.AtomTexts

/-!
# Parenthesized text can be read

Parenthesized text is a row of words: an opening parenthesis with the operator after it, a literal or a name,
each with a space in front, and a closing parenthesis without one. Taken from the last to the first, the words
are instructions for a stack, where a closing parenthesis leaves a mark and an opening one takes its operands
down to that mark; so `-` with one operand is not mistaken for `-` with two.
-/
namespace BlockScript

def UnaryOp.ofSymbol? : String → Option UnaryOp
  | "!" => some .not
  | "-" => some .negate
  | _ => none

@[simp] theorem UnaryOp.ofSymbol?_symbol (op : UnaryOp) : ofSymbol? op.symbol = some op := by
  cases op <;> rfl

def BinaryOp.ofSymbol? : String → Option BinaryOp
  | "==" => some .equal
  | "!=" => some .notEqual
  | ">" => some .greater
  | ">=" => some .greaterEqual
  | "<" => some .less
  | "<=" => some .lessEqual
  | "+" => some .add
  | "-" => some .subtract
  | "*" => some .multiply
  | "/" => some .divide
  | _ => none

@[simp] theorem BinaryOp.ofSymbol?_symbol (op : BinaryOp) : ofSymbol? op.symbol = some op := by
  cases op <;> rfl

/-! ### Words -/

/-- A word of parenthesized text; `opening` is a parenthesis with what stands right after it. -/
inductive ParenWord where
  | atom (a : Atom)
  | opening (head : String)
  | closing

namespace ParenWord

/-- The word with the space in front of it. -/
def spelling : ParenWord → List Char
  | atom a => ' ' :: a.text.toList
  | opening head => ' ' :: '(' :: head.toList
  | closing => [')']

/-- What ends a word that is not a string. -/
def endsWord (c : Char) : Bool := c == ' ' || c == ')'

def IsLegible : ParenWord → Prop
  | atom a => a.IsLegible
  | opening head => head.toList.any endsWord = false
  | closing => True

/-- The word with the spelling. -/
def ofSpelling : List Char → ParenWord
  | ' ' :: '(' :: head => opening (String.ofList head)
  | ' ' :: cs => atom (.ofText (String.ofList cs))
  | _ => closing

/-- The spelling of the first word of a row. -/
def firstOf : List Char → List Char
  | ' ' :: '"' :: cs => ' ' :: '"' :: (cs.takeWhile (· != '"') ++ ['"'])
  | ' ' :: cs => ' ' :: cs.takeWhile fun c => !endsWord c
  | cs => cs.take 1

variable {w : ParenWord} {rest : List Char}

theorem endsWord_of_isPart {c : Char} (h : Atom.isPart c = true) : endsWord c = false := by
  rw [endsWord, Bool.or_eq_false_iff, beq_eq_false_iff_ne, beq_eq_false_iff_ne]
  constructor
  · rintro rfl
    exact absurd h (by decide)
  · rintro rfl
    exact absurd h (by decide)

theorem ofSpelling_spelling (h : w.IsLegible) : ofSpelling w.spelling = w := by
  cases w with
  | atom a =>
    have hfirst : ∀ cs, a.text.toList ≠ '(' :: cs := by
      intro cs hcs
      rcases Atom.text_cases h with hplain | ⟨cs', -, hcs'⟩
      · have hpart := hplain.parts '(' (by rw [hcs]; exact List.mem_cons_self)
        exact absurd hpart (by decide)
      · rw [hcs] at hcs'
        exact absurd (List.cons.inj hcs').1 (by decide)
    rw [spelling]
    unfold ofSpelling
    split
    · next heq => exact absurd (List.cons.inj heq).2 (hfirst _)
    · next heq =>
      rw [← (List.cons.inj heq).2, String.ofList_toList, Atom.ofText_text h]
    · next hne => exact absurd rfl (hne _)
  | opening head => rw [spelling, ofSpelling, String.ofList_toList]
  | closing => rfl

theorem firstOf_plain {cs : List Char} (hquote : cs.head? ≠ some '"')
    (hcs : ∀ c ∈ cs, endsWord c = false) (hrest : ∀ c ∈ rest.head?, endsWord c = true) (hne : cs ≠ []) :
    firstOf (' ' :: cs ++ rest) = ' ' :: cs := by
  obtain ⟨c, cs, rfl⟩ := List.exists_cons_of_ne_nil hne
  have htake : (c :: cs ++ rest).takeWhile (fun c => !endsWord c) = c :: cs :=
    Piece.takeWhile_eq_self (fun d hd => by rw [hcs d hd]; rfl) fun d hd => by rw [hrest d hd]; rfl
  rw [List.cons_append]
  unfold firstOf
  split
  · next heq =>
    obtain ⟨rfl, -⟩ := List.cons.inj (List.cons.inj heq).2
    exact absurd rfl hquote
  · next heq => rw [← (List.cons.inj heq).2, htake]
  · next hne => exact absurd rfl (hne _)

/-- A word ends where a space or a closing parenthesis follows, or nothing at all. -/
theorem firstOf_spelling (h : w.IsLegible) (hrest : ∀ c ∈ rest.head?, endsWord c = true) :
    firstOf (w.spelling ++ rest) = w.spelling := by
  cases w with
  | atom a =>
    rcases Atom.text_cases h with hplain | ⟨cs, hcs, htext⟩
    · refine firstOf_plain (fun hquote => ?_) (fun c hc => endsWord_of_isPart (hplain.parts c hc)) hrest
        hplain.ne_nil
      exact absurd (hplain.parts '"' (List.mem_of_head? hquote)) (by decide)
    · rw [spelling, htext, List.cons_append, List.cons_append, List.append_assoc, firstOf,
        Piece.takeWhile_ne hcs (by simp)]
  | opening head =>
    have hhead : ∀ c ∈ head.toList, endsWord c = false := fun c hc => by
      simpa using List.any_eq_false.1 h c hc
    exact firstOf_plain (by simp) (List.forall_mem_cons.2 ⟨rfl, hhead⟩) hrest (List.cons_ne_nil _ _)
  | closing => rfl

theorem head?_row (ws : List ParenWord) : ∀ c ∈ (ws.flatMap spelling).head?, endsWord c = true := by
  cases ws with
  | nil => simp
  | cons w rest => cases w <;> simp [spelling, endsWord]

/-- Legible words can be told from their row. -/
theorem eq_of_row_eq {ws ws' : List ParenWord} (h : ∀ w ∈ ws, w.IsLegible) (h' : ∀ w ∈ ws', w.IsLegible)
    (heq : ws.flatMap spelling = ws'.flatMap spelling) : ws = ws' := by
  refine eq_of_flatMap_eq (fun w _ => ?_) (fun w w' rest rest' hw hw' hrow => ?_) h h' heq
  · cases w <;> exact List.cons_ne_nil _ _
  · have hspelling : w.spelling = w'.spelling := by
      rw [← firstOf_spelling hw (head?_row rest), hrow, firstOf_spelling hw' (head?_row rest')]
    rw [← ofSpelling_spelling hw, hspelling, ofSpelling_spelling hw']

theorem isLegible_unary (op : UnaryOp) : (opening op.symbol).IsLegible := by
  cases op <;> rfl

theorem isLegible_binary (op : BinaryOp) : (opening op.symbol).IsLegible := by
  cases op <;> rfl

/-! ### The stack of expressions -/

/-- The expression with the head and one operand. -/
def enclose? (head : String) (e : Expr) : Option Expr :=
  if head = "group" then some (.grouping e) else (UnaryOp.ofSymbol? head).map (.unary · 0 e)

/-- The expression with the head and two operands. -/
def combine? (head : String) (l r : Expr) : Option Expr :=
  match head, l with
  | "=", .var name => some (.assign name r)
  | head, l => (BinaryOp.ofSymbol? head).map (.binary l · 0 r)

/-- What a word does to the stack, which holds expressions and marks; `none` if it does not make sense
there. -/
def act : ParenWord → List (Option Expr) → Option (List (Option Expr))
  | closing, stack => some (none :: stack)
  | atom (.literal v), stack => some (some (.literal v) :: stack)
  | atom (.name lexeme), stack => some (some (.var (.ofName lexeme)) :: stack)
  | opening head, some e :: none :: stack => (enclose? head e).map (some · :: stack)
  | opening head, some l :: some r :: none :: stack => (combine? head l r).map (some · :: stack)
  | opening _, _ => none

/-- The words are taken from the last to the first. -/
def actAll : List ParenWord → List (Option Expr) → Option (List (Option Expr))
  | [], stack => some stack
  | w :: rest, stack => (actAll rest stack).bind w.act

theorem enclose?_group (e : Expr) : enclose? "group" e = some (.grouping e) := rfl

theorem enclose?_symbol (op : UnaryOp) (e : Expr) : enclose? op.symbol e = some (.unary op 0 e) := by
  cases op <;> rfl

theorem combine?_equal (name : Token) (e : Expr) : combine? "=" (.var name) e = some (.assign name e) := rfl

theorem combine?_symbol (l : Expr) (op : BinaryOp) (r : Expr) :
    combine? op.symbol l r = some (.binary l op 0 r) := by
  cases op <;> rfl

end ParenWord

/-! ### Expressions -/

namespace Expr
open ParenWord
variable {e e' : Expr}

/-- The words of an expression. -/
def parenWords : Expr → List ParenWord
  | .literal v => [.atom (.literal v)]
  | .grouping e => .opening "group" :: (e.parenWords ++ [.closing])
  | .unary op _ e => .opening op.symbol :: (e.parenWords ++ [.closing])
  | .binary l op _ r => .opening op.symbol :: (l.parenWords ++ (r.parenWords ++ [.closing]))
  | .var name => [.atom (.name name.lexeme)]
  | .assign name e => .opening "=" :: .atom (.name name.lexeme) :: (e.parenWords ++ [.closing])

theorem toList_parenthesized (e : Expr) : ' ' :: e.parenthesized.toList = e.parenWords.flatMap spelling := by
  induction e with
  | literal v => simp [parenthesized, parenWords, spelling, Atom.text]
  | grouping e ih => simp [parenthesized, parenWords, spelling, ← ih]
  | unary op line e ih => simp [parenthesized, parenWords, spelling, ← ih]
  | binary l op line r ihl ihr => simp [parenthesized, parenWords, spelling, ← ihl, ← ihr]
  | var name => simp [parenthesized, parenWords, spelling, Atom.text]
  | assign name e ih => simp [parenthesized, parenWords, spelling, Atom.text, ← ih]

theorem isLegible_parenWords (h : e.IsLegible) : ∀ w ∈ e.parenWords, w.IsLegible := by
  have hclosing : ∀ w ∈ [closing], w.IsLegible := List.forall_mem_singleton.2 trivial
  induction e with
  | literal v => exact List.forall_mem_singleton.2 h
  | grouping e ih =>
    have hhead : (opening "group").IsLegible := rfl
    exact List.forall_mem_cons.2 ⟨hhead, List.forall_mem_append.2 ⟨ih h, hclosing⟩⟩
  | unary op line e ih =>
    exact List.forall_mem_cons.2 ⟨isLegible_unary op, List.forall_mem_append.2 ⟨ih h, hclosing⟩⟩
  | binary l op line r ihl ihr =>
    have hr := List.forall_mem_append.2 ⟨ihr h.2, hclosing⟩
    exact List.forall_mem_cons.2 ⟨isLegible_binary op, List.forall_mem_append.2 ⟨ihl h.1, hr⟩⟩
  | var name => exact List.forall_mem_singleton.2 h
  | assign name e ih =>
    have hhead : (opening "=").IsLegible := rfl
    have he := List.forall_mem_append.2 ⟨ih h.2, hclosing⟩
    exact List.forall_mem_cons.2 ⟨hhead, List.forall_mem_cons.2 ⟨h.1, he⟩⟩

/-- The words of an expression put it on the stack. -/
theorem actAll_parenWords_append (e : Expr) (rest : List ParenWord) (stack : List (Option Expr)) :
    actAll (e.parenWords ++ rest) stack = (actAll rest stack).map (some e.eraseTokens :: ·) := by
  induction e generalizing rest with
  | literal v => cases h : actAll rest stack <;> simp [parenWords, actAll, act, eraseTokens, h]
  | grouping e ih =>
    cases h : actAll rest stack <;>
      simp [parenWords, actAll, act, eraseTokens, ih, enclose?_group, h]
  | unary op line e ih =>
    cases h : actAll rest stack <;>
      simp [parenWords, actAll, act, eraseTokens, ih, enclose?_symbol, h]
  | binary l op line r ihl ihr =>
    cases h : actAll rest stack <;>
      simp [parenWords, actAll, act, eraseTokens, ihl, ihr, combine?_symbol, h]
  | var name => cases h : actAll rest stack <;> simp [parenWords, actAll, act, eraseTokens, h]
  | assign name e ih =>
    cases h : actAll rest stack <;>
      simp [parenWords, actAll, act, eraseTokens, ih, combine?_equal, h]

/-- Lines leave no trace in the words, and of a name only its lexeme does. -/
theorem parenWords_eraseTokens (e : Expr) : e.eraseTokens.parenWords = e.parenWords := by
  induction e with
  | literal v => rfl
  | grouping e ih => rw [eraseTokens, parenWords, ih, parenWords]
  | unary op line e ih => rw [eraseTokens, parenWords, ih, parenWords]
  | binary l op line r ihl ihr => rw [eraseTokens, parenWords, ihl, ihr, parenWords]
  | var name => rfl
  | assign name e ih =>
    rw [eraseTokens, parenWords, ih, parenWords]
    rfl

theorem parenWords_eq_iff (e e' : Expr) :
    e.parenWords = e'.parenWords ↔ e.eraseTokens = e'.eraseTokens := by
  constructor
  · intro hwords
    have h := actAll_parenWords_append e [] []
    have h' := actAll_parenWords_append e' [] []
    rw [hwords, h'] at h
    exact (Option.some.inj (List.cons.inj (Option.some.inj h)).1).symm
  · intro herased
    rw [← parenWords_eraseTokens e, herased, parenWords_eraseTokens e']

/-- Two expressions have the same parenthesized text just if they are equal up to lines and everything about
names but their lexemes. Numbers are equal if their bits are. -/
theorem parenthesized_eq_iff (h : e.IsLegible) (h' : e'.IsLegible) :
    e.parenthesized = e'.parenthesized ↔ e.eraseTokens = e'.eraseTokens := by
  rw [← parenWords_eq_iff]
  constructor
  · intro htext
    refine eq_of_row_eq (isLegible_parenWords h) (isLegible_parenWords h') ?_
    rw [← toList_parenthesized e, htext, toList_parenthesized e']
  · intro hwords
    have hrow := toList_parenthesized e
    rw [hwords, ← toList_parenthesized e'] at hrow
    exact String.toList_inj.1 (List.cons.inj hrow).2

/-- In `(- (- ") 1") (group group))` the lines of the operators do not show, but the parentheses around the
variable `group` do. -/
theorem parenthesized_eq_iff_group :
    let difference (line : UInt32) (right : Expr) :=
      binary (unary .negate line (.literal (.string ") 1"))) .subtract line right
    let name := var (.ofName "group")
    (difference 1 (grouping name)).parenthesized = (difference 2 (grouping name)).parenthesized ∧
      (difference 1 (grouping name)).parenthesized ≠ (difference 1 name).parenthesized := by
  intro difference name
  have hname : name.IsLegible :=
    show Token.Kind.Matches .identifier ['g', 'r', 'o', 'u', 'p'] from
      .identifier rfl (List.all_eq_true.1 rfl) (by decide)
  have hstring : (Value.string ") 1").IsLegible := show '"' ∉ ") 1".toList by decide
  have hplain (line : UInt32) : (difference line name).IsLegible := ⟨hstring, hname⟩
  have hgrouped (line : UInt32) : (difference line (grouping name)).IsLegible := ⟨hstring, hname⟩
  refine ⟨(parenthesized_eq_iff (hgrouped 1) (hgrouped 2)).2 rfl, fun htext => ?_⟩
  have herased := (parenthesized_eq_iff (hgrouped 1) (hplain 1)).1 htext
  cases (Expr.binary.inj herased).2.2.2

end Expr
end BlockScript
