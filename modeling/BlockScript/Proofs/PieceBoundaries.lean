import BlockScript.Scanned
import BlockScript.Proofs.ProgramReading

/-!
# Boundaries between pieces

Where a piece ends depends on what follows it, but a text that ends before a separating character is cut
as it is on its own, unless it leaves a string or a comment open. So the tokens of a longer text are those
of its parts.
-/
namespace BlockScript
namespace Piece

/-- Whether no number, word or operator goes on into the text. -/
def Separates (rest : List Char) : Prop :=
  ∀ c ∈ rest.head?, c ≠ '/' ∧ c ≠ '=' ∧ c ≠ '.' ∧ isNamePart c = false

theorem takeWhile_append {p : Char → Bool} (cs : List Char) {rest : List Char}
    (h : ∀ c ∈ rest.head?, p c = false) : (cs ++ rest).takeWhile p = cs.takeWhile p := by
  induction cs with
  | nil =>
    cases rest with
    | nil => rfl
    | cons c rest => simp [h c rfl]
  | cons d cs ih => simp [List.takeWhile_cons, ih]

theorem takeWhile_append_of_lt {p : Char → Bool} {cs : List Char} (rest : List Char)
    (h : (cs.takeWhile p).length < cs.length) : (cs ++ rest).takeWhile p = cs.takeWhile p := by
  induction cs with
  | nil => cases h
  | cons c cs ih =>
    by_cases hc : p c
    · simp [hc] at h
      simp [hc, ih h]
    · simp [hc]

/-! ### Extents -/

section Extent
variable {c : Char} {cs rest : List Char}

theorem takeWhile_length_le (p : Char → Bool) (cs : List Char) : (cs.takeWhile p).length ≤ cs.length :=
  (List.takeWhile_prefix p).length_le

theorem numberExtent_le (cs : List Char) : numberExtent cs ≤ cs.length := by
  have hle := takeWhile_length_le Char.isDigit cs
  unfold numberExtent
  dsimp only
  split
  · next d rest hd =>
    split
    · have hlen := congrArg List.length hd
      have hrest := takeWhile_length_le Char.isDigit rest
      simp only [List.length_drop, List.length_cons] at hlen
      omega
    · exact hle
  · exact hle

theorem extent_blank (h : isBlank c = true) : extent c cs = (.gap, 0) := by
  rw [extent, if_pos h]

theorem extent_comment (h : cs.head? = some '/') :
    extent '/' cs = (.gap, (cs.takeWhile (· != '\n')).length) := by
  rw [extent, if_neg (by decide), if_pos ⟨rfl, h⟩]

theorem extent_string (h : (cs.takeWhile (· != '"')).length < cs.length) :
    extent '"' cs = (.token .string, (cs.takeWhile (· != '"')).length + 1) := by
  rw [extent, if_neg (by decide), if_neg (by simp), if_pos rfl, if_pos h]

theorem extent_openString (h : ¬ (cs.takeWhile (· != '"')).length < cs.length) :
    extent '"' cs = (.openString, (cs.takeWhile (· != '"')).length) := by
  rw [extent, if_neg (by decide), if_neg (by simp), if_pos rfl, if_neg h]

theorem isBlank_of_isNamePart (h : isNamePart c = true) : isBlank c = false := by
  rw [← Bool.not_eq_true]
  intro hb
  simp only [isBlank, Bool.or_eq_true, beq_iff_eq] at hb
  obtain ((rfl | rfl) | rfl) | rfl := hb <;> exact absurd h (by decide)

theorem isNamePart_of_isDigit (h : c.isDigit = true) : isNamePart c = true := by
  simp [isNamePart, Char.isAlphanum, h]

theorem isNamePart_of_isNameStart (h : isNameStart c = true) : isNamePart c = true := by
  simp only [isNameStart, Bool.or_eq_true] at h
  simp only [isNamePart, Char.isAlphanum, Bool.or_eq_true]
  exact h.imp_left .inl

/-- The letters stand behind the digits. -/
theorem le_toNat_of_isAlpha (h : c.isAlpha = true) : 'A'.toNat ≤ c.toNat := by
  rcases (Bool.or_eq_true c.isUpper c.isLower).mp h with hupper | hlower
  · exact UInt32.le_iff_toNat_le.1 (of_decide_eq_true hupper).1
  · have hle : decide (c.val ≥ 'a'.val) = true := ((Bool.and_eq_true _ _).mp hlower).1
    exact Nat.le_trans (by decide) (UInt32.le_iff_toNat_le.1 (of_decide_eq_true hle))

theorem isDigit_of_isNameStart (h : isNameStart c = true) : c.isDigit = false := by
  rw [isNameStart, Bool.or_eq_true, beq_iff_eq] at h
  rcases h with h | rfl
  · have hle := le_toNat_of_isAlpha h
    rw [← Bool.not_eq_true, Char.isDigit_iff_toNat]
    have hnine : '9'.toNat < 'A'.toNat := by decide
    omega
  · rfl

theorem extent_number (h : c.isDigit = true) : extent c cs = (.token .number, numberExtent cs) := by
  have hpart := isNamePart_of_isDigit h
  have hblank := isBlank_of_isNamePart hpart
  have hslash : ¬ (c = '/' ∧ cs.head? = some '/') := by
    rintro ⟨rfl, -⟩
    exact absurd hpart (by decide)
  have hquote : c ≠ '"' := by
    rintro rfl
    exact absurd hpart (by decide)
  simp only [extent, hblank, hslash, hquote, h, if_true, if_false, Bool.false_eq_true]

theorem extent_name (h : isNameStart c = true) :
    extent c cs = (.token (.ofWord (String.ofList (c :: cs.takeWhile isNamePart))),
      (cs.takeWhile isNamePart).length) := by
  have hpart := isNamePart_of_isNameStart h
  have hblank := isBlank_of_isNamePart hpart
  have hslash : ¬ (c = '/' ∧ cs.head? = some '/') := by
    rintro ⟨rfl, -⟩
    exact absurd hpart (by decide)
  have hquote : c ≠ '"' := by
    rintro rfl
    exact absurd hpart (by decide)
  simp only [extent, hblank, hslash, hquote, isDigit_of_isNameStart h, h, if_true, if_false,
    Bool.false_eq_true]

/-- The kinds of the tokens that are neither words, strings nor numbers. -/
def symbolKinds : List Token.Kind :=
  [.leftParen, .rightParen, .leftBrace, .rightBrace, .comma, .dot, .minus, .plus, .semicolon, .slash,
   .star, .bang, .bangEqual, .equal, .equalEqual, .greater, .greaterEqual, .less, .lessEqual]

theorem symbol?_mem {kind : Token.Kind} (h : symbol? c = some kind) : kind ∈ symbolKinds := by
  rw [symbol?.eq_def] at h
  split at h <;> cases h <;> decide

theorem symbolEqual?_mem {kind : Token.Kind} (h : symbolEqual? c = some kind) : kind ∈ symbolKinds := by
  rw [symbolEqual?.eq_def] at h
  split at h <;> cases h <;> decide

theorem extent_symbol (hblank : isBlank c = false) (hslash : ¬ (c = '/' ∧ cs.head? = some '/'))
    (hquote : c ≠ '"') (hdigit : c.isDigit = false) (hname : isNameStart c = false) :
    extent c cs = (.stray, 0) ∨
      ∃ kind n, kind ∈ symbolKinds ∧ n ≤ cs.length ∧ extent c cs = (.token kind, n) := by
  simp only [extent, hblank, hslash, hquote, hdigit, hname, if_false, Bool.false_eq_true]
  split
  · next both alone hboth halone =>
    split
    · next hequal =>
      refine .inr ⟨both, 1, symbolEqual?_mem hboth, ?_, rfl⟩
      cases cs with
      | nil => cases hequal
      | cons d cs => exact Nat.le_add_left 1 _
    · exact .inr ⟨alone, 0, symbol?_mem halone, Nat.zero_le _, rfl⟩
  · next alone halone _ => exact .inr ⟨alone, 0, symbol?_mem halone, Nat.zero_le _, rfl⟩
  · exact .inl rfl

/-- Everything that a piece can be. -/
theorem extent_cases (c : Char) (cs : List Char) :
    (∃ n ≤ cs.length, extent c cs = (.gap, n)) ∨
    (c = '"' ∧ (cs.takeWhile (· != '"')).length < cs.length ∧
      extent c cs = (.token .string, (cs.takeWhile (· != '"')).length + 1)) ∨
    extent c cs = (.openString, (cs.takeWhile (· != '"')).length) ∨
    extent c cs = (.token .number, numberExtent cs) ∨
    (isNameStart c = true ∧ extent c cs =
      (.token (.ofWord (String.ofList (c :: cs.takeWhile isNamePart))), (cs.takeWhile isNamePart).length)) ∨
    extent c cs = (.stray, 0) ∨
    ∃ kind n, kind ∈ symbolKinds ∧ n ≤ cs.length ∧ extent c cs = (.token kind, n) := by
  by_cases hblank : isBlank c
  · exact .inl ⟨0, Nat.zero_le _, extent_blank hblank⟩
  by_cases hcomment : c = '/' ∧ cs.head? = some '/'
  · obtain ⟨rfl, hslash⟩ := hcomment
    exact .inl ⟨_, takeWhile_length_le _ cs, extent_comment hslash⟩
  by_cases hquote : c = '"'
  · subst hquote
    by_cases hclosed : (cs.takeWhile (· != '"')).length < cs.length
    · exact .inr (.inl ⟨rfl, hclosed, extent_string hclosed⟩)
    · exact .inr (.inr (.inl (extent_openString hclosed)))
  by_cases hdigit : c.isDigit
  · exact .inr (.inr (.inr (.inl (extent_number hdigit))))
  by_cases hname : isNameStart c
  · exact .inr (.inr (.inr (.inr (.inl ⟨hname, extent_name hname⟩))))
  · rw [Bool.not_eq_true] at hblank hdigit hname
    exact .inr (.inr (.inr (.inr (.inr (extent_symbol hblank hcomment hquote hdigit hname)))))

theorem extent_le (c : Char) (cs : List Char) : (extent c cs).2 ≤ cs.length := by
  rcases extent_cases c cs with
    ⟨n, hn, he⟩ | ⟨-, hlt, he⟩ | he | he | ⟨-, he⟩ | he | ⟨kind, n, -, hn, he⟩ <;> rw [he]
  · exact hn
  · exact hlt
  · exact takeWhile_length_le _ cs
  · exact numberExtent_le cs
  · exact takeWhile_length_le _ cs
  · exact Nat.zero_le _
  · exact hn

theorem Separates.isDigit (h : Separates rest) : ∀ c ∈ rest.head?, c.isDigit = false := by
  intro c hc
  have hn := (h c hc).2.2.2
  simp only [isNamePart, Char.isAlphanum, Bool.or_eq_false_iff] at hn
  exact hn.1.2

theorem head?_append_iff (cs : List Char) {d : Char} (h : ∀ c ∈ rest.head?, c ≠ d) :
    (cs ++ rest).head? = some d ↔ cs.head? = some d := by
  cases cs with
  | nil =>
    simp only [List.nil_append, List.head?_nil, reduceCtorEq, iff_false]
    exact fun hd => h d hd rfl
  | cons e cs => simp

theorem numberExtent_append (h : Separates rest) : numberExtent (cs ++ rest) = numberExtent cs := by
  have htake := takeWhile_append cs h.isDigit
  have hle := takeWhile_length_le Char.isDigit cs
  have hdrop := @List.drop_append_of_le_length _ cs rest _ hle
  simp only [numberExtent, htake, hdrop]
  rcases cs.drop (cs.takeWhile Char.isDigit).length with _ | ⟨d, _ | ⟨e, tail⟩⟩
  · rcases rest with _ | ⟨d, rest⟩
    · rfl
    · have hd : d ≠ '.' := (h d rfl).2.2.1
      simp [hd]
  · rcases rest with _ | ⟨e, rest⟩
    · rfl
    · have he : e.isDigit = false := h.isDigit e rfl
      by_cases hd : d = '.'
      · simp [hd, he]
      · simp [hd]
  · by_cases hd : d = '.'
    · subst hd
      simp [takeWhile_append tail h.isDigit]
    · simp [hd]

theorem extent_append (hr : Separates rest) (hs : (extent c cs).1 ≠ .openString)
    (hg : (extent c cs).1 = .gap → ∀ d ∈ rest.head?, d = '\n') :
    extent c (cs ++ rest) = extent c cs := by
  have hname : ∀ d ∈ rest.head?, isNamePart d = false := fun d hd => (hr d hd).2.2.2
  have hslash := head?_append_iff cs fun d hd => (hr d hd).1
  have hequal := head?_append_iff cs fun d hd => (hr d hd).2.1
  rw [extent] at hs hg
  simp only [extent, hslash, hequal, numberExtent_append hr, takeWhile_append cs hname]
  by_cases hblank : isBlank c
  · rw [if_pos hblank, if_pos hblank]
  rw [if_neg hblank] at hs hg ⊢
  rw [if_neg hblank]
  by_cases hcomment : c = '/' ∧ cs.head? = some '/'
  · rw [if_pos hcomment] at hg ⊢
    rw [if_pos hcomment, takeWhile_append]
    intro d hd
    simp [hg rfl d hd]
  rw [if_neg hcomment] at hs ⊢
  rw [if_neg hcomment]
  by_cases hquote : c = '"'
  · rw [if_pos hquote] at hs ⊢
    rw [if_pos hquote]
    dsimp only at hs ⊢
    by_cases hclosed : (cs.takeWhile (· != '"')).length < cs.length
    · have hlt : (cs.takeWhile (· != '"')).length < (cs ++ rest).length := by
        rw [List.length_append]
        omega
      rw [takeWhile_append_of_lt rest hclosed, if_pos hlt, if_pos hclosed]
    · rw [if_neg hclosed] at hs
      exact absurd rfl hs
  rw [if_neg hquote, if_neg hquote]

end Extent

/-! ### Pieces -/

theorem newlines_append (cs cs' : List Char) : newlines (cs ++ cs') = newlines cs + newlines cs' := by
  simp [newlines, UInt32.ofNat_add]

@[elab_as_elim] theorem pieces_induction {motive : UInt32 → List Char → Prop}
    (nil : ∀ line, motive line [])
    (cons : ∀ line c cs, motive (first line c cs).line (cs.drop (extent c cs).2) → motive line (c :: cs))
    (line : UInt32) (cs : List Char) : motive line cs := by
  induction hn : cs.length using Nat.strongRecOn generalizing line cs with
  | ind n ih =>
    cases cs with
    | nil => exact nil line
    | cons c cs =>
      have hlt : (cs.drop (extent c cs).2).length < n := by
        rw [← hn, List.length_drop, List.length_cons]
        omega
      exact cons line c cs (ih _ hlt _ _ rfl)

/-- The lines go on after the first piece. -/
theorem line_newlines_cons (line : UInt32) (c : Char) (cs : List Char) :
    line + newlines (c :: cs) = (first line c cs).line + newlines (cs.drop (extent c cs).2) := by
  rw [← first_text_append line c cs, newlines_append, ← UInt32.add_assoc]
  rfl

/-- A piece begins somewhere in the text. -/
theorem exists_first_of_mem_pieces {line : UInt32} {cs : List Char} {p : Piece}
    (hp : p ∈ pieces line cs) :
    ∃ before c rest, cs = before ++ c :: rest ∧ p = first (line + newlines before) c rest := by
  induction line, cs using pieces_induction with
  | nil line => simp at hp
  | cons line c cs ih =>
    rw [pieces_cons] at hp
    rcases List.mem_cons.1 hp with rfl | hp
    · exact ⟨[], c, cs, rfl, by simp [newlines]⟩
    · obtain ⟨before, d, rest, hcs, rfl⟩ := ih hp
      refine ⟨(first line c cs).text ++ before, d, rest, ?_, ?_⟩
      · rw [List.append_assoc, ← hcs, first_text_append]
      · rw [newlines_append, ← UInt32.add_assoc]
        rfl

section Pieces
variable {line : UInt32} {c : Char} {cs rest : List Char}

/-- A beginning that is one piece. -/
theorem pieces_of_extent {role : Role} (h : extent c (cs ++ rest) = (role, cs.length)) :
    pieces line (c :: (cs ++ rest)) =
      ⟨role, c :: cs, line + newlines (c :: cs)⟩ :: pieces (line + newlines (c :: cs)) rest := by
  rw [pieces_cons, first, h]
  simp

theorem pieces_append (hr : Separates rest) (ho : ∀ p ∈ pieces line cs, p.role ≠ .openString)
    (hg : (∃ p ∈ pieces line cs, p.role = .gap) → ∀ d ∈ rest.head?, d = '\n') :
    pieces line (cs ++ rest) = pieces line cs ++ pieces (line + newlines cs) rest := by
  induction line, cs using pieces_induction with
  | nil line => simp [newlines]
  | cons line c cs ih =>
    have hfirst : first line c cs ∈ pieces line (c :: cs) := by
      rw [pieces_cons]
      exact List.mem_cons_self
    have hextent : extent c (cs ++ rest) = extent c cs :=
      extent_append hr (ho _ hfirst) fun hrole => hg ⟨_, hfirst, hrole⟩
    have hle := extent_le c cs
    have hsame : first line c (cs ++ rest) = first line c cs := by
      rw [first, first, hextent, List.take_append_of_le_length hle]
    rw [pieces_cons] at ho hg
    have hrest := ih (fun p hp => ho p (List.mem_cons_of_mem _ hp))
      (fun hgap => hg (hgap.imp fun p hp => ⟨List.mem_cons_of_mem _ hp.1, hp.2⟩))
    rw [List.cons_append, pieces_cons, pieces_cons, hsame, hextent, List.drop_append_of_le_length hle,
      hrest, List.cons_append, line_newlines_cons]

end Pieces
end Piece
end BlockScript
