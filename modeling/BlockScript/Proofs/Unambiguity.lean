import BlockScript.Proofs.Grammar

/-!
# The grammar is unambiguous

Tokens have at most one derivation, also where the grammar is taken literally. The induction is over
derivations of the beginning of a token list: two of them agree, and stop at the same place, if neither
could go on with the tokens that follow (`Ends`).
-/
namespace BlockScript
namespace Grammar

/-- Whether none of the tokens that follow can belong to an expression of the category. -/
def Ends : Category → List Token → Prop
  | _, [] => True
  | .primary, _ => True
  | .chain height, t :: _ => ∀ op, BinaryOp.ofKind? t.kind = some op → op.level + height < 4
  | .expression, t :: _ => BinaryOp.ofKind? t.kind = none ∧ t.kind ≠ .equal

theorem Ends.chain_of_expression {rest : List Token} (height : Nat) (h : Ends .expression rest) :
    Ends (.chain height) rest := by
  cases rest with
  | nil => trivial
  | cons t rest =>
    intro op hop
    simp [h.1] at hop

theorem Ends.lower {height : Nat} {rest : List Token} (h : Ends (.chain (height + 1)) rest) :
    Ends (.chain height) rest := by
  cases rest with
  | nil => trivial
  | cons t rest =>
    intro op hop
    have hl := h op hop
    omega

theorem ends_rightParen (closing : Terminal .rightParen) (rest : List Token) :
    Ends .expression (closing.1 :: rest) := by
  simp [Ends, closing.2, BinaryOp.ofKind?]

theorem ends_semicolon (semicolon : Terminal .semicolon) (rest : List Token) :
    Ends .expression (semicolon.1 :: rest) := by
  simp [Ends, semicolon.2, BinaryOp.ofKind?]

theorem ends_equal (equals : Terminal .equal) (height : Nat) (rest : List Token) :
    Ends (.chain height) (equals.1 :: rest) := by
  simp [Ends, equals.2, BinaryOp.ofKind?]

theorem ends_primary (rest : List Token) : Ends .primary rest := by
  cases rest <;> trivial

theorem ends_links {height : Nat} {rest : List Token} (links : Links height)
    (h : Ends (.chain (height + 1)) rest) : Ends (.chain height) (links.tokens ++ rest) := by
  cases links with
  | nil => exact h.lower
  | cons t op hop hl right more =>
    intro op' hop'
    obtain rfl : op = op' := Option.some.inj (hop.symm.trans hop')
    omega

theorem Terminal.kind_eq {kind kind' : Token.Kind} (t : Terminal kind) (t' : Terminal kind')
    (h : t.1 = t'.1) : kind = kind' :=
  t.2.symm.trans ((congrArg Token.kind h).trans t'.2)

theorem BeginsPrimary.not_sign {t : Token} (h : BeginsPrimary t) : UnaryOp.ofKind? t.kind = none := by
  unfold BeginsPrimary Token.constant? at h
  cases hk : t.kind <;> simp_all [UnaryOp.ofKind?]

theorem primary_append_ne_signed {t : Token} {op : UnaryOp} (h : UnaryOp.ofKind? t.kind = some op)
    (p : Phrase .primary) (rest rest' : List Token) : p.tokens ++ rest ≠ t :: rest' := by
  intro he
  obtain ⟨t', more, ht, hb⟩ := p.primary_begins
  rw [ht, List.cons_append, List.cons.injEq] at he
  obtain ⟨rfl, -⟩ := he
  simp [hb.not_sign] at h

mutual

/-- Two derivations of the beginning of a token list agree. -/
theorem Phrase.append_inj : {c : Category} → (p q : Phrase c) → (rest rest' : List Token) →
    Ends c rest → Ends c rest' → p.tokens ++ rest = q.tokens ++ rest' → p = q ∧ rest = rest'
  | _, .constant t v h, q, rest, rest', _, _, he => by
    cases q with
    | constant t' v' h' =>
      obtain ⟨rfl, rfl⟩ := List.cons.inj he
      obtain rfl : v = v' := Option.some.inj (h.symm.trans h')
      exact ⟨rfl, rfl⟩
    | name t' =>
      obtain ⟨rfl, -⟩ := List.cons.inj he
      simp [Token.constant?, t'.2] at h
    | paren opening inner closing =>
      obtain ⟨rfl, -⟩ := List.cons.inj he
      simp [Token.constant?, opening.2] at h
  | _, .name t, q, rest, rest', _, _, he => by
    cases q with
    | constant t' v' h' =>
      obtain ⟨rfl, -⟩ := List.cons.inj he
      simp [Token.constant?, t.2] at h'
    | name t' =>
      obtain ⟨ht, rfl⟩ := List.cons.inj he
      exact ⟨congrArg Phrase.name (Subtype.ext ht), rfl⟩
    | paren opening inner closing =>
      obtain ⟨ht, -⟩ := List.cons.inj he
      cases t.kind_eq opening ht
  | _, .paren opening inner closing, q, rest, rest', _, _, he => by
    cases q with
    | constant t' v' h' =>
      obtain ⟨rfl, -⟩ := List.cons.inj he
      simp [Token.constant?, opening.2] at h'
    | name t' =>
      obtain ⟨ht, -⟩ := List.cons.inj he
      cases opening.kind_eq t' ht
    | paren opening' inner' closing' =>
      simp only [Phrase.tokens, List.cons_append, List.append_assoc, List.cons.injEq] at he
      obtain ⟨ho, he⟩ := he
      obtain ⟨rfl, hr⟩ := inner.append_inj inner' _ _ (ends_rightParen closing rest)
        (ends_rightParen closing' rest') he
      obtain ⟨hc, rfl⟩ := List.cons.inj hr
      obtain rfl := Subtype.ext ho
      obtain rfl := Subtype.ext hc
      exact ⟨rfl, rfl⟩
  | _, .plain operand, q, rest, rest', _, _, he => by
    cases q with
    | plain operand' =>
      obtain ⟨rfl, rfl⟩ := operand.append_inj operand' rest rest' (ends_primary rest)
        (ends_primary rest') he
      exact ⟨rfl, rfl⟩
    | signed t op h operand' => exact absurd he (primary_append_ne_signed h operand rest _)
  | _, .signed t op h operand, q, rest, rest', _, _, he => by
    cases q with
    | plain operand' => exact absurd he.symm (primary_append_ne_signed h operand' rest' _)
    | signed t' op' h' operand' =>
      obtain ⟨rfl, ho⟩ := List.cons.inj he
      obtain rfl : op = op' := Option.some.inj (h.symm.trans h')
      obtain ⟨rfl, rfl⟩ := operand.append_inj operand' rest rest' (ends_primary rest)
        (ends_primary rest') ho
      exact ⟨rfl, rfl⟩
  | _, .chain first links, .chain first' links', rest, rest', hr, hr', he => by
    rw [Phrase.tokens, Phrase.tokens, List.append_assoc, List.append_assoc] at he
    obtain ⟨rfl, hl⟩ := first.append_inj first' _ _ (ends_links links hr) (ends_links links' hr') he
    obtain ⟨rfl, rfl⟩ := links.append_inj links' rest rest' hr hr' hl
    exact ⟨rfl, rfl⟩
  | _, .value e, q, rest, rest', hr, hr', he => by
    cases q with
    | value e' =>
      obtain ⟨rfl, rfl⟩ := e.append_inj e' rest rest' (hr.chain_of_expression 4)
        (hr'.chain_of_expression 4) he
      exact ⟨rfl, rfl⟩
    | assign target equals e' =>
      rw [Phrase.tokens, Phrase.tokens, List.append_assoc, List.cons_append] at he
      obtain ⟨-, rfl⟩ := e.append_inj target rest _ (hr.chain_of_expression 4)
        (ends_equal equals 4 _) he
      exact absurd equals.2 hr.2
  | _, .assign target equals e, q, rest, rest', hr, hr', he => by
    cases q with
    | value e' =>
      rw [Phrase.tokens, Phrase.tokens, List.append_assoc, List.cons_append] at he
      obtain ⟨-, rfl⟩ := target.append_inj e' _ rest' (ends_equal equals 4 _)
        (hr'.chain_of_expression 4) he
      exact absurd equals.2 hr'.2
    | assign target' equals' e' =>
      simp only [Phrase.tokens, List.append_assoc, List.cons_append] at he
      obtain ⟨rfl, hv⟩ := target.append_inj target' _ _ (ends_equal equals 4 _)
        (ends_equal equals' 4 _) he
      obtain ⟨hq, hv'⟩ := List.cons.inj hv
      obtain rfl := Subtype.ext hq
      obtain ⟨rfl, rfl⟩ := e.append_inj e' rest rest' hr hr' hv'
      exact ⟨rfl, rfl⟩

theorem Links.append_inj : {height : Nat} → (links links' : Links height) →
    (rest rest' : List Token) → Ends (.chain (height + 1)) rest → Ends (.chain (height + 1)) rest' →
    links.tokens ++ rest = links'.tokens ++ rest' → links = links' ∧ rest = rest'
  | _, .nil, links', rest, rest', hr, hr', he => by
    cases links' with
    | nil => exact ⟨rfl, he⟩
    | cons t op h hl right more =>
      obtain rfl := he
      have hlt := hr op h
      omega
  | _, .cons t op h hl right more, links', rest, rest', hr, hr', he => by
    cases links' with
    | nil =>
      obtain rfl := he
      have hlt := hr' op h
      omega
    | cons t' op' h' hl' right' more' =>
      simp only [Links.tokens, List.cons_append, List.append_assoc, List.cons.injEq] at he
      obtain ⟨rfl, he⟩ := he
      obtain rfl : op = op' := Option.some.inj (h.symm.trans h')
      obtain ⟨rfl, hm⟩ := right.append_inj right' _ _ (ends_links more hr) (ends_links more' hr') he
      obtain ⟨rfl, rfl⟩ := more.append_inj more' rest rest' hr hr' hm
      exact ⟨rfl, rfl⟩

end

theorem BeginsExpression.not_leading {t : Token} (h : BeginsExpression t) :
    t.kind ∉ [Token.Kind.varKw, .printKw, .leftBrace, .rightBrace] := by
  unfold BeginsExpression BeginsPrimary Token.constant? at h
  cases hk : t.kind <;> simp_all [UnaryOp.ofKind?]

namespace Declaration

/-- The kind of the first token, if it alone decides what follows. -/
def lead (tokens : List Token) : Option Token.Kind :=
  (tokens.head?.map Token.kind).filter (· ∈ [Token.Kind.varKw, .printKw, .leftBrace, .rightBrace])

theorem lead_terminal {kind : Token.Kind} (t : Terminal kind) (rest : List Token)
    (h : kind ∈ [Token.Kind.varKw, .printKw, .leftBrace, .rightBrace]) :
    lead (t.1 :: rest) = some kind := by
  rw [lead, List.head?_cons, Option.map_some, t.2, Option.filter_some, if_pos (by simpa using h)]

theorem lead_phrase {c : Category} (p : Phrase c) (rest : List Token) :
    lead (p.tokens ++ rest) = none := by
  obtain ⟨t, more, ht, hb⟩ := p.begins
  rw [lead, ht, List.cons_append, List.head?_cons, Option.map_some, Option.filter_some,
    if_neg (by simpa using hb.not_leading)]

/-- How a declaration begins. -/
def leading : Declaration → Option Token.Kind
  | .declare _ _ _ | .define _ _ _ _ _ => some .varKw
  | .print _ _ _ => some .printKw
  | .block _ _ _ => some .leftBrace
  | .effect _ _ => none

theorem lead_tokens (d : Declaration) (rest : List Token) : lead (d.tokens ++ rest) = d.leading := by
  cases d with
  | declare keyword name semicolon => exact lead_terminal keyword _ (by decide)
  | define keyword name equals value semicolon => exact lead_terminal keyword _ (by decide)
  | print keyword value semicolon => exact lead_terminal keyword _ (by decide)
  | block opening body closing => exact lead_terminal opening _ (by decide)
  | effect value semicolon =>
    rw [tokens, List.append_assoc]
    exact lead_phrase value _

/-- Whether the declarations cannot go on with the tokens that follow. -/
def End (rest : List Token) : Prop :=
  rest = [] ∨ lead rest = some .rightBrace

theorem End.ne_tokens {rest : List Token} (h : End rest) (d : Declaration) (more : List Token) :
    rest ≠ d.tokens ++ more := by
  rintro rfl
  have hl := d.lead_tokens more
  rcases h with h | h
  · rw [h] at hl
    cases d with
    | effect value semicolon =>
      simp [tokens] at h
    | declare | define | print | block => cases hl
  · rw [h] at hl
    cases d <;> cases hl

theorem end_rightBrace (closing : Terminal .rightBrace) (rest : List Token) :
    End (closing.1 :: rest) :=
  .inr (lead_terminal closing rest (by decide))

mutual

theorem append_inj : (d d' : Declaration) → (rest rest' : List Token) →
    d.tokens ++ rest = d'.tokens ++ rest' → d = d' ∧ rest = rest'
  | .declare keyword name semicolon, d', rest, rest', he => by
    have hl := (lead_tokens _ rest).symm.trans ((congrArg lead he).trans (lead_tokens d' rest'))
    cases d' with
    | declare keyword' name' semicolon' =>
      simp only [tokens, List.cons_append, List.nil_append, List.cons.injEq] at he
      obtain ⟨hk, hn, hs, rfl⟩ := he
      obtain rfl := Subtype.ext hk
      obtain rfl := Subtype.ext hn
      obtain rfl := Subtype.ext hs
      exact ⟨rfl, rfl⟩
    | define keyword' name' equals' value' semicolon' =>
      simp only [tokens, List.cons_append, List.nil_append, List.cons.injEq] at he
      obtain ⟨-, -, hs, -⟩ := he
      cases semicolon.kind_eq equals' hs
    | print | block | effect => cases hl
  | .define keyword name equals value semicolon, d', rest, rest', he => by
    have hl := (lead_tokens _ rest).symm.trans ((congrArg lead he).trans (lead_tokens d' rest'))
    cases d' with
    | declare keyword' name' semicolon' =>
      simp only [tokens, List.cons_append, List.nil_append, List.cons.injEq] at he
      obtain ⟨-, -, hs, -⟩ := he
      cases equals.kind_eq semicolon' hs
    | define keyword' name' equals' value' semicolon' =>
      simp only [tokens, List.cons_append, List.append_assoc, List.cons.injEq] at he
      obtain ⟨hk, hn, hq, hv⟩ := he
      obtain ⟨rfl, hr⟩ := value.append_inj value' _ _ (ends_semicolon semicolon _)
        (ends_semicolon semicolon' _) hv
      obtain ⟨hs, rfl⟩ := List.cons.inj hr
      obtain rfl := Subtype.ext hk
      obtain rfl := Subtype.ext hn
      obtain rfl := Subtype.ext hq
      obtain rfl := Subtype.ext hs
      exact ⟨rfl, rfl⟩
    | print | block | effect => cases hl
  | .print keyword value semicolon, d', rest, rest', he => by
    have hl := (lead_tokens _ rest).symm.trans ((congrArg lead he).trans (lead_tokens d' rest'))
    cases d' with
    | print keyword' value' semicolon' =>
      simp only [tokens, List.cons_append, List.append_assoc, List.cons.injEq] at he
      obtain ⟨hk, hv⟩ := he
      obtain ⟨rfl, hr⟩ := value.append_inj value' _ _ (ends_semicolon semicolon _)
        (ends_semicolon semicolon' _) hv
      obtain ⟨hs, rfl⟩ := List.cons.inj hr
      obtain rfl := Subtype.ext hk
      obtain rfl := Subtype.ext hs
      exact ⟨rfl, rfl⟩
    | declare | define | block | effect => cases hl
  | .effect value semicolon, d', rest, rest', he => by
    have hl := (lead_tokens _ rest).symm.trans ((congrArg lead he).trans (lead_tokens d' rest'))
    cases d' with
    | effect value' semicolon' =>
      simp only [tokens, List.append_assoc] at he
      obtain ⟨rfl, hr⟩ := value.append_inj value' _ _ (ends_semicolon semicolon _)
        (ends_semicolon semicolon' _) he
      obtain ⟨hs, rfl⟩ := List.cons.inj hr
      obtain rfl := Subtype.ext hs
      exact ⟨rfl, rfl⟩
    | declare | define | print | block => cases hl
  | .block opening body closing, d', rest, rest', he => by
    have hl := (lead_tokens _ rest).symm.trans ((congrArg lead he).trans (lead_tokens d' rest'))
    cases d' with
    | block opening' body' closing' =>
      simp only [tokens, List.cons_append, List.append_assoc, List.cons.injEq] at he
      obtain ⟨ho, hb⟩ := he
      obtain ⟨rfl, hr⟩ := append_inj_all body body' _ _ (end_rightBrace closing _)
        (end_rightBrace closing' _) hb
      obtain ⟨hc, rfl⟩ := List.cons.inj hr
      obtain rfl := Subtype.ext ho
      obtain rfl := Subtype.ext hc
      exact ⟨rfl, rfl⟩
    | declare | define | print | effect => cases hl

theorem append_inj_all : (ds ds' : List Declaration) → (rest rest' : List Token) →
    End rest → End rest' → tokensOfAll ds ++ rest = tokensOfAll ds' ++ rest' →
    ds = ds' ∧ rest = rest'
  | [], [], _, _, _, _, he => ⟨rfl, he⟩
  | [], d' :: more', rest, rest', hr, _, he => by
    rw [tokensOfAll, tokensOfAll, List.append_assoc] at he
    exact absurd he (hr.ne_tokens d' _)
  | d :: more, [], rest, rest', _, hr', he => by
    rw [tokensOfAll, tokensOfAll, List.append_assoc] at he
    exact absurd he.symm (hr'.ne_tokens d _)
  | d :: more, d' :: more', rest, rest', hr, hr', he => by
    rw [tokensOfAll, tokensOfAll, List.append_assoc, List.append_assoc] at he
    obtain ⟨rfl, hm⟩ := append_inj d d' _ _ he
    obtain ⟨rfl, rfl⟩ := append_inj_all more more' rest rest' hr hr' hm
    exact ⟨rfl, rfl⟩

end

end Declaration
end Grammar
end BlockScript
