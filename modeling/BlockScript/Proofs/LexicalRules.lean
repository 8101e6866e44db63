import Mathlib.Data.List.Basic
import BlockScript.Proofs.Lexemes

/-!
# Lexical rules

The texts of the tokens are given by rules of their own. A source is laid out without loss as tokens, each
the longest that the rules allow where it begins, and gaps of blanks, comments and errors; there is only one
such layout, and scanning finds it.
-/
namespace BlockScript

/-! ### Rules -/

namespace Token.Kind

/-- The texts of the tokens that are neither words nor literals. -/
def punctuation : List (List Char × Kind) :=
  [(['('], leftParen), ([')'], rightParen), (['{'], leftBrace), (['}'], rightBrace), ([','], comma),
   (['.'], dot), (['-'], minus), (['+'], plus), ([';'], semicolon), (['/'], slash), (['*'], star),
   (['!'], bang), (['!', '='], bangEqual), (['='], equal), (['=', '='], equalEqual), (['>'], greater),
   (['>', '='], greaterEqual), (['<'], less), (['<', '='], lessEqual)]

/-- The lexical rules: a token of the kind can have the text. -/
inductive Matches : Kind → List Char → Prop where
  | punctuation {kind : Kind} {text : List Char} (h : (text, kind) ∈ punctuation) : Matches kind text
  | number {whole fraction : List Char} (hne : whole ≠ []) (hw : ∀ c ∈ whole, c.isDigit = true)
      (hf : ∀ c ∈ fraction, c.isDigit = true) : Matches number (DecimalText.numeral whole fraction)
  | keyword {kind : Kind} {word : String} (h : (word, kind) ∈ keywords) : Matches kind word.toList
  | identifier {c : Char} {cs : List Char} (hc : Piece.isNameStart c = true)
      (hcs : ∀ d ∈ cs, Piece.isNamePart d = true) (h : String.ofList (c :: cs) ∉ keywords.map Prod.fst) :
      Matches identifier (c :: cs)
  | string {body : List Char} (h : '"' ∉ body) : Matches string ('"' :: (body ++ ['"']))

theorem matches_ofWord {c : Char} {cs : List Char} (hc : Piece.isNameStart c = true)
    (hcs : ∀ d ∈ cs, Piece.isNamePart d = true) :
    (ofWord (String.ofList (c :: cs))).Matches (c :: cs) := by
  by_cases hid : ofWord (String.ofList (c :: cs)) = .identifier
  · rw [hid]
    exact .identifier hc hcs ((ofWord_eq_identifier_iff _).1 hid)
  · rw [ofWord] at hid ⊢
    cases hl : keywords.lookup (String.ofList (c :: cs)) with
    | none =>
      rw [hl] at hid
      exact absurd rfl hid
    | some kind =>
      obtain ⟨before, after, hmem, -⟩ := List.lookup_eq_some_iff.1 hl
      have hentry : (String.ofList (c :: cs), kind) ∈ keywords := by
        rw [hmem]
        simp
      have hword := Matches.keyword hentry
      rwa [String.toList_ofList] at hword

theorem letters_of_keyword {kind : Kind} {word : String} (h : (word, kind) ∈ keywords) :
    ∃ c cs, word.toList = c :: cs ∧ Piece.isNameStart c = true ∧
      (∀ d ∈ cs, Piece.isNamePart d = true) ∧ ofWord (String.ofList (c :: cs)) = kind := by
  have hkinds : ∀ entry ∈ keywords, ofWord entry.1 = entry.2 := by decide
  have hletters : ∀ entry ∈ keywords,
      entry.1.toList = entry.1.toList.headD ' ' :: entry.1.toList.tail ∧
        Piece.isNameStart (entry.1.toList.headD ' ') = true ∧
        entry.1.toList.tail.all Piece.isNamePart = true := by decide
  obtain ⟨hcons, hstart, hrest⟩ := hletters _ h
  refine ⟨_, _, hcons, hstart, List.all_eq_true.1 hrest, ?_⟩
  rw [← hcons, String.ofList_toList]
  exact hkinds _ h

end Token.Kind

namespace DecimalText

theorem numeral_cons (c : Char) (whole fraction : List Char) :
    numeral (c :: whole) fraction = c :: numeral whole fraction := by
  cases fraction <;> rfl

end DecimalText

namespace Piece
open Token.Kind DecimalText
variable {c : Char} {cs rest : List Char} {kind : Token.Kind}

/-! ### Scanning a text that matches a rule -/

theorem extent_quoted {body : List Char} (h : '"' ∉ body) (rest : List Char) :
    extent '"' ((body ++ ['"']) ++ rest) = (.token .string, (body ++ ['"']).length) := by
  have htake : ((body ++ ['"']) ++ rest).takeWhile (· != '"') = body := by
    rw [List.append_assoc]
    exact takeWhile_ne h (by simp)
  rw [extent_string, htake, List.length_append, List.length_singleton]
  rw [htake, List.length_append, List.length_append, List.length_singleton]
  omega

theorem extent_unquoted {body : List Char} (h : '"' ∉ body) :
    extent '"' body = (.openString, body.length) := by
  have htake : body.takeWhile (· != '"') = body := by
    have hall : (body ++ []).takeWhile (· != '"') = body := takeWhile_ne h fun d hd => by cases hd
    rwa [List.append_nil] at hall
  rw [extent_openString (by rw [htake]; exact Nat.lt_irrefl _), htake]

/-- A text that matches a rule is one token, if nothing follows it. -/
theorem extent_of_matches {text : List Char} (h : kind.Matches text) :
    ∃ c cs, text = c :: cs ∧ extent c cs = (.token kind, cs.length) := by
  cases h with
  | punctuation h =>
    have hall : ∀ entry ∈ punctuation, entry.1 = entry.1.headD ' ' :: entry.1.tail ∧
        extent (entry.1.headD ' ') entry.1.tail = (.token entry.2, entry.1.tail.length) := by decide
    exact ⟨_, _, hall _ h⟩
  | @number whole fraction hne hw hf =>
    obtain ⟨c, whole, rfl⟩ := List.exists_cons_of_ne_nil hne
    refine ⟨c, numeral whole fraction, numeral_cons c whole fraction, ?_⟩
    have hend : Separates [] := fun d hd => by cases hd
    have hextent := Scans.numberExtent_numeral (fun d hd => hw d (List.mem_cons_of_mem c hd)) hf hend
    rw [List.append_nil] at hextent
    rw [extent_number (hw c List.mem_cons_self), hextent]
  | keyword h =>
    obtain ⟨c, cs, hword, hc, hcs, hkind⟩ := letters_of_keyword h
    refine ⟨c, cs, hword, ?_⟩
    rw [extent_name hc, takeWhile_of_all hcs, hkind]
  | @identifier c cs hc hcs h =>
    refine ⟨c, cs, rfl, ?_⟩
    rw [extent_name hc, takeWhile_of_all hcs, (ofWord_eq_identifier_iff _).2 h]
  | @string body h =>
    have hextent := extent_quoted h []
    rw [List.append_nil] at hextent
    exact ⟨'"', body ++ ['"'], rfl, hextent⟩

theorem extent_of_matches_cons (h : kind.Matches (c :: cs)) : extent c cs = (.token kind, cs.length) := by
  obtain ⟨d, ds, heq, hextent⟩ := extent_of_matches h
  obtain ⟨rfl, rfl⟩ := List.cons.inj heq
  exact hextent

theorem le_numberExtent {whole fraction : List Char} (hw : ∀ d ∈ whole, d.isDigit = true)
    (hf : ∀ d ∈ fraction, d.isDigit = true) (rest : List Char) :
    (numeral whole fraction).length ≤ numberExtent (numeral whole fraction ++ rest) := by
  cases fraction with
  | nil =>
    have htake := @List.takeWhile_append_of_pos _ Char.isDigit whole rest hw
    rw [numeral_nil, numberExtent, htake, List.length_append]
    split
    · split <;> omega
    · omega
  | cons d fraction =>
    have hnumeral : numeral whole (d :: fraction) ++ rest = whole ++ '.' :: d :: (fraction ++ rest) := by
      simp [numeral]
    have htake : (whole ++ '.' :: d :: (fraction ++ rest)).takeWhile Char.isDigit = whole :=
      takeWhile_eq_self hw (by simp)
    have htake' : (fraction ++ rest).takeWhile Char.isDigit = fraction ++ rest.takeWhile Char.isDigit :=
      List.takeWhile_append_of_pos fun e he => hf e (List.mem_cons_of_mem d he)
    rw [hnumeral, numberExtent, htake, List.drop_left]
    simp [numeral, hf d List.mem_cons_self, htake']
    omega

theorem le_extent_of_word (hc : isNameStart c = true) (hcs : ∀ d ∈ cs, isNamePart d = true)
    (rest : List Char) : cs.length ≤ (extent c (cs ++ rest)).2 := by
  rw [extent_name hc, List.takeWhile_append_of_pos hcs, List.length_append]
  exact Nat.le_add_right _ _

/-- A piece is at least as long as any text before it that matches a rule, unless it is a comment. -/
theorem le_extent_of_matches {text : List Char} (h : kind.Matches text) (heq : text = c :: cs)
    (hcomment : ¬ (c = '/' ∧ (cs ++ rest).head? = some '/')) : cs.length ≤ (extent c (cs ++ rest)).2 := by
  cases h with
  | punctuation h =>
    have hall : ∀ entry ∈ punctuation, entry.1.tail = [] ∨
        entry.1.headD ' ' ∈ ['!', '=', '<', '>'] ∧ entry.1.tail = ['='] := by decide
    have hentry := hall _ h
    rw [heq, List.headD_cons, List.tail_cons] at hentry
    rcases hentry with rfl | ⟨hc, rfl⟩
    · exact Nat.zero_le _
    · have hone : (extent c ('=' :: rest)).2 = 1 := by
        simp only [List.mem_cons, List.not_mem_nil, or_false] at hc
        rcases hc with rfl | rfl | rfl | rfl <;> rfl
      exact hone.ge
  | @number whole fraction hne hw hf =>
    obtain ⟨d, whole, rfl⟩ := List.exists_cons_of_ne_nil hne
    rw [numeral_cons] at heq
    obtain ⟨rfl, rfl⟩ := List.cons.inj heq
    rw [extent_number (hw d List.mem_cons_self)]
    exact le_numberExtent (fun e he => hw e (List.mem_cons_of_mem d he)) hf rest
  | keyword h =>
    obtain ⟨d, ds, hword, hd, hds, -⟩ := letters_of_keyword h
    obtain ⟨rfl, rfl⟩ := List.cons.inj (hword.symm.trans heq)
    exact le_extent_of_word hd hds rest
  | @identifier d ds hd hds h =>
    obtain ⟨rfl, rfl⟩ := List.cons.inj heq
    exact le_extent_of_word hd hds rest
  | @string body h =>
    obtain ⟨rfl, rfl⟩ := List.cons.inj heq
    rw [extent_quoted h]

/-! ### Where a piece ends -/

/-- What begins a text, and the rest of the text. A token is the longest text that matches a rule, but two
slashes begin a comment, which goes on to the end of the line. -/
inductive Leads : Role → List Char → List Char → Prop where
  | blank {c : Char} {rest : List Char} (hc : isBlank c = true) : Leads .gap [c] rest
  | comment {body rest : List Char} (hbody : '\n' ∉ body) (hrest : ∀ c ∈ rest.head?, c = '\n') :
      Leads .gap ('/' :: '/' :: body) rest
  | token {kind : Token.Kind} {text rest : List Char} (h : kind.Matches text)
      (hcomment : ¬ ['/', '/'] <+: text ++ rest)
      (hlongest : ∀ (other : Token.Kind) (text' : List Char), other.Matches text' →
        text' <+: text ++ rest → text'.length ≤ text.length) :
      Leads (.token kind) text rest
  | stray {c : Char} {rest : List Char} (hc : isBlank c = false)
      (h : ∀ (kind : Token.Kind) (text : List Char), ¬ kind.Matches (c :: text)) : Leads .stray [c] rest
  | openString {body : List Char} (hbody : '"' ∉ body) : Leads .openString ('"' :: body) []

theorem slashes_prefix_iff : ['/', '/'] <+: c :: cs ↔ c = '/' ∧ cs.head? = some '/' := by
  rw [List.cons_prefix_cons, eq_comm, List.head?_eq_some_iff]
  exact and_congr_right fun _ => ⟨fun ⟨rest, h⟩ => ⟨rest, h.symm⟩, fun ⟨rest, h⟩ => ⟨rest, h.symm⟩⟩

/-- A token that the rules allow is the longest. -/
theorem leads_token {n : Nat} (hextent : extent c cs = (.token kind, n))
    (h : kind.Matches (c :: cs.take n)) (hcomment : ¬ (c = '/' ∧ cs.head? = some '/')) :
    Leads (.token kind) (c :: cs.take n) (cs.drop n) := by
  have happend : (c :: cs.take n) ++ cs.drop n = c :: cs := by
    rw [List.cons_append, List.take_append_drop]
  refine .token h (by rwa [happend, slashes_prefix_iff]) fun other text hother hprefix => ?_
  rw [happend] at hprefix
  obtain ⟨d, ds, rfl, -⟩ := extent_of_matches hother
  obtain ⟨rfl, tail, rfl⟩ := List.cons_prefix_cons.1 hprefix
  have hle := le_extent_of_matches hother rfl hcomment
  rw [hextent] at hle
  simp only [List.length_cons, List.length_take, List.length_append]
  omega

theorem drop_takeWhile (p : Char → Bool) (cs : List Char) :
    cs.drop (cs.takeWhile p).length = cs.dropWhile p := by
  have hdrop := @List.drop_left _ (cs.takeWhile p) (cs.dropWhile p)
  rwa [List.takeWhile_append_dropWhile] at hdrop

theorem head?_drop_takeWhile (p : Char → Bool) (cs : List Char) :
    ∀ c ∈ (cs.drop (cs.takeWhile p).length).head?, p c = false := by
  rw [drop_takeWhile]
  intro c hc
  have hhead := List.head?_dropWhile_not p cs
  rwa [Option.mem_def.1 hc] at hhead

/-- The characters of a number after its first digit. -/
theorem exists_numeral_take (cs : List Char) :
    ∃ whole fraction, cs.take (numberExtent cs) = numeral whole fraction ∧
      (∀ d ∈ whole, d.isDigit = true) ∧ ∀ d ∈ fraction, d.isDigit = true := by
  have hwhole : ∀ d ∈ cs.takeWhile Char.isDigit, d.isDigit = true := fun d hd => of_mem_takeWhile hd
  have hnone : ∃ whole fraction, cs.take (cs.takeWhile Char.isDigit).length = numeral whole fraction ∧
      (∀ d ∈ whole, d.isDigit = true) ∧ ∀ d ∈ fraction, d.isDigit = true :=
    ⟨cs.takeWhile Char.isDigit, [], take_takeWhile Char.isDigit cs, hwhole, fun d hd => by cases hd⟩
  rw [numberExtent]
  split
  · next d rest hdrop =>
    split
    · next hd =>
      refine ⟨cs.takeWhile Char.isDigit, d :: rest.takeWhile Char.isDigit, ?_, hwhole, ?_⟩
      · have hcs := List.take_append_drop (cs.takeWhile Char.isDigit).length cs
        rw [hdrop, take_takeWhile] at hcs
        have hsplit : cs = numeral (cs.takeWhile Char.isDigit) (d :: rest.takeWhile Char.isDigit) ++
            rest.dropWhile Char.isDigit := by
          simp [numeral, hcs]
        have hlength : (numeral (cs.takeWhile Char.isDigit) (d :: rest.takeWhile Char.isDigit)).length =
            (cs.takeWhile Char.isDigit).length + 2 + (rest.takeWhile Char.isDigit).length := by
          simp only [numeral, List.length_append, List.length_cons]
          omega
        have htake := @List.take_left' _ _ (rest.dropWhile Char.isDigit) _ hlength
        rwa [← hsplit] at htake
      · intro e he
        rcases List.mem_cons.1 he with rfl | he
        · exact hd
        · exact of_mem_takeWhile he
    · exact hnone
  · exact hnone

theorem punctuation_of_symbol? (h : symbol? c = some kind) : ([c], kind) ∈ punctuation := by
  rw [symbol?.eq_def] at h
  split at h <;> cases h <;> decide

theorem punctuation_of_symbolEqual? (h : symbolEqual? c = some kind) : ([c, '='], kind) ∈ punctuation := by
  rw [symbolEqual?.eq_def] at h
  split at h <;> cases h <;> decide

theorem symbol?_of_symbolEqual? (h : symbolEqual? c = some kind) : symbol? c ≠ none := by
  rw [symbolEqual?.eq_def] at h
  split at h <;> cases h <;> decide

section Symbols
variable (hblank : isBlank c = false) (hslash : ¬ (c = '/' ∧ cs.head? = some '/')) (hquote : c ≠ '"')
  (hdigit : c.isDigit = false) (hname : isNameStart c = false)
include hblank hslash hquote hdigit hname

theorem extent_stray (h : symbol? c = none) : extent c cs = (.stray, 0) := by
  simp [extent, hblank, hslash, hquote, hdigit, hname, h]

theorem extent_alone (h : symbol? c = some kind) (hequal : symbolEqual? c = none ∨ cs.head? ≠ some '=') :
    extent c cs = (.token kind, 0) := by
  rcases hequal with hboth | hequal
  · simp [extent, hblank, hslash, hquote, hdigit, hname, h, hboth]
  · cases hboth : symbolEqual? c <;>
      simp [extent, hblank, hslash, hquote, hdigit, hname, h, hboth, hequal]

omit hslash in
theorem extent_both (h : symbolEqual? c = some kind) (hequal : cs.head? = some '=') :
    extent c cs = (.token kind, 1) := by
  obtain ⟨alone, halone⟩ := Option.ne_none_iff_exists'.1 (symbol?_of_symbolEqual? h)
  simp [extent, hblank, hquote, hdigit, hname, h, halone, hequal]

/-- The pieces that begin with none of the characters of blanks, comments, strings, numbers and words. -/
theorem leads_symbol :
    Leads (extent c cs).1 (c :: cs.take (extent c cs).2) (cs.drop (extent c cs).2) := by
  cases halone : symbol? c with
  | none =>
    rw [extent_stray hblank hslash hquote hdigit hname halone]
    refine .stray hblank fun kind text hmatches => ?_
    have hstray : extent c text = (.stray, 0) := by
      refine extent_stray hblank ?_ hquote hdigit hname halone
      rintro ⟨rfl, -⟩
      cases halone
    rw [extent_of_matches_cons hmatches] at hstray
    cases hstray
  | some alone =>
    by_cases hequal : symbolEqual? c = none ∨ cs.head? ≠ some '='
    · have hextent := extent_alone hblank hslash hquote hdigit hname halone hequal
      rw [hextent]
      exact leads_token hextent (.punctuation (punctuation_of_symbol? halone)) hslash
    · rw [not_or, Classical.not_not] at hequal
      obtain ⟨both, hboth⟩ := Option.ne_none_iff_exists'.1 hequal.1
      have hextent := extent_both hblank hquote hdigit hname hboth hequal.2
      obtain ⟨tail, rfl⟩ := List.head?_eq_some_iff.1 hequal.2
      rw [hextent]
      exact leads_token hextent (.punctuation (punctuation_of_symbolEqual? hboth)) hslash

end Symbols

/-- Where a piece ends is decided by the rules. -/
theorem leads_extent (c : Char) (cs : List Char) :
    Leads (extent c cs).1 (c :: cs.take (extent c cs).2) (cs.drop (extent c cs).2) := by
  by_cases hblank : isBlank c = true
  · rw [extent_blank hblank]
    exact .blank hblank
  by_cases hcomment : c = '/' ∧ cs.head? = some '/'
  · obtain ⟨rfl, hslash⟩ := hcomment
    obtain ⟨cs, rfl⟩ := List.head?_eq_some_iff.1 hslash
    have htake : ('/' :: cs).takeWhile (· != '\n') = '/' :: cs.takeWhile (· != '\n') := rfl
    rw [extent_comment hslash, htake, List.length_cons, List.take_succ_cons, List.drop_succ_cons,
      take_takeWhile]
    refine .comment (fun hmem => ?_) fun d hd => ?_
    · exact absurd (of_mem_takeWhile hmem) (by simp)
    · simpa using head?_drop_takeWhile (· != '\n') cs d hd
  by_cases hquote : c = '"'
  · subst hquote
    have hbody : '"' ∉ cs.takeWhile (· != '"') := fun hmem => absurd (of_mem_takeWhile hmem) (by simp)
    by_cases hclosed : (cs.takeWhile (· != '"')).length < cs.length
    · rw [extent_string hclosed]
      refine leads_token (extent_string hclosed) ?_ hcomment
      rw [take_quoted hclosed]
      exact .string hbody
    · have hall : cs.takeWhile (· != '"') = cs :=
        (List.takeWhile_prefix _).eq_of_length_le (Nat.le_of_not_lt hclosed)
      rw [extent_openString hclosed, hall, List.take_length, List.drop_length]
      rw [hall] at hbody
      exact .openString hbody
  by_cases hdigit : c.isDigit = true
  · obtain ⟨whole, fraction, htake, hw, hf⟩ := exists_numeral_take cs
    rw [extent_number hdigit]
    refine leads_token (extent_number hdigit) ?_ hcomment
    rw [htake, ← numeral_cons]
    exact .number (List.cons_ne_nil c whole) (List.forall_mem_cons.2 ⟨hdigit, hw⟩) hf
  by_cases hname : isNameStart c = true
  · rw [extent_name hname]
    refine leads_token (extent_name hname) ?_ hcomment
    rw [take_takeWhile]
    exact matches_ofWord hname fun d hd => of_mem_takeWhile hd
  · exact leads_symbol (Bool.eq_false_iff.2 hblank) hcomment hquote (Bool.eq_false_iff.2 hdigit)
      (Bool.eq_false_iff.2 hname)

theorem exists_leads (c : Char) (cs : List Char) :
    ∃ role text rest, cs = text ++ rest ∧ extent c cs = (role, text.length) ∧
      Leads role (c :: text) rest := by
  have hlength : (cs.take (extent c cs).2).length = (extent c cs).2 := by
    rw [List.length_take, Nat.min_eq_left (extent_le c cs)]
  refine ⟨_, _, _, (List.take_append_drop (extent c cs).2 cs).symm, ?_, leads_extent c cs⟩
  rw [hlength]

/-- The rules leave no choice of a piece. -/
theorem extent_of_leads {role : Role} (h : Leads role (c :: cs) rest) :
    extent c (cs ++ rest) = (role, cs.length) := by
  obtain ⟨role', text, rest', happend, hextent, hleads⟩ := exists_leads c (cs ++ rest)
  cases h with
  | blank hc => exact extent_blank hc
  | @comment body _ hbody hrest =>
    have hslash : '\n' ∉ '/' :: body := List.not_mem_cons_of_ne_of_not_mem (by decide) hbody
    rw [extent_comment rfl, takeWhile_ne hslash hrest]
  | openString hbody =>
    rw [List.append_nil]
    exact extent_unquoted hbody
  | stray hc hnone =>
    cases hleads with
    | blank hblank => exact absurd hblank (by simp [hc])
    | comment => exact absurd (.punctuation (by decide)) (hnone .slash [])
    | token h => exact absurd h (hnone _ text)
    | stray => exact hextent
    | openString => exact absurd (.string (List.not_mem_nil)) (hnone .string ['"'])
  | @token kind _ _ h hcomment hlongest =>
    have halone := extent_of_matches_cons h
    cases hleads with
    | blank hblank =>
      rw [extent_blank hblank] at halone
      cases halone
    | comment =>
      rw [List.cons_append, happend] at hcomment
      exact absurd (slashes_prefix_iff.2 ⟨rfl, rfl⟩) hcomment
    | @token kind' _ _ h' hcomment' hlongest' =>
      -- both begin the same text, and each is the longest that does
      have hle := hlongest _ _ h' ⟨rest', by rw [List.cons_append, List.cons_append, happend]⟩
      have hge := hlongest' _ _ h ⟨rest, by rw [List.cons_append, List.cons_append, happend]⟩
      have hlength : cs.length = text.length := by
        simp only [List.length_cons] at hle hge
        omega
      obtain ⟨rfl, rfl⟩ := List.append_inj happend hlength
      rw [extent_of_matches_cons h'] at halone
      rw [hextent, halone]
    | stray hc hnone => exact absurd h (hnone kind cs)
    | openString hbody =>
      rw [List.append_nil] at happend
      have hcs : '"' ∉ cs := fun hmem => hbody (happend ▸ List.mem_append_left rest hmem)
      rw [extent_unquoted hcs] at halone
      cases halone

theorem Leads.rest_eq_nil {text : List Char} (h : Leads .openString text rest) : rest = [] := by
  cases h
  rfl

/-- What begins a text is not empty. -/
theorem Leads.exists_cons {role : Role} {text : List Char} (h : Leads role text rest) :
    ∃ c cs, text = c :: cs := by
  cases h with
  | token h =>
    obtain ⟨c, cs, htext, -⟩ := extent_of_matches h
    exact ⟨c, cs, htext⟩
  | blank | comment | stray | openString => exact ⟨_, _, rfl⟩

theorem pieces_of_leads {role : Role} {text : List Char} (h : Leads role text rest) (line : UInt32) :
    pieces line (text ++ rest) =
      ⟨role, text, line + newlines text⟩ :: pieces (line + newlines text) rest := by
  obtain ⟨c, cs, rfl⟩ := h.exists_cons
  exact pieces_of_extent (extent_of_leads h)

variable {line : UInt32} {text : List Char}

theorem toNat_newlines (h : line.toNat + text.count '\n' < 2 ^ 32) :
    (line + newlines text).toNat = line.toNat + text.count '\n' := by
  rw [UInt32.toNat_add, newlines, UInt32.toNat_ofNat', Nat.add_mod_mod, Nat.mod_eq_of_lt h]

theorem line_eq_of_toNat {n : UInt32} (hn : n.toNat = line.toNat + text.count '\n') :
    n = line + newlines text := by
  rw [← UInt32.toNat_inj, toNat_newlines (hn ▸ n.toNat_lt), hn]

/-- The lines of a text and of what follows it can be counted if those of both together can. -/
theorem toNat_newlines_of_append (h : line.toNat + (text ++ rest).count '\n' < 2 ^ 32) :
    (line + newlines text).toNat = line.toNat + text.count '\n' ∧
      (line + newlines text).toNat + rest.count '\n' < 2 ^ 32 := by
  rw [List.count_append, ← Nat.add_assoc] at h
  have hline := toNat_newlines (Nat.lt_of_le_of_lt (Nat.le_add_right _ _) h)
  exact ⟨hline, by rwa [hline]⟩

end Piece

/-! ### Layout -/

/-- The layout of a text that begins on a line: its tokens, and the errors in the gaps between them. -/
inductive LaidOut : Nat → List Char → List Token → List SyntaxError → Prop where
  | done (line : Nat) : LaidOut line [] [] []
  | gap {line : Nat} {text rest : List Char} {tokens : List Token} {errors : List SyntaxError}
      (h : Piece.Leads .gap text rest) (hrest : LaidOut (line + text.count '\n') rest tokens errors) :
      LaidOut line (text ++ rest) tokens errors
  | token {line : Nat} {kind : Token.Kind} {text rest : List Char} {n : UInt32} {tokens : List Token}
      {errors : List SyntaxError} (h : Piece.Leads (.token kind) text rest)
      (hn : n.toNat = line + text.count '\n')
      (hrest : LaidOut (line + text.count '\n') rest tokens errors) :
      LaidOut line (text ++ rest) (⟨kind, String.ofList text, kind.literal? text, n⟩ :: tokens) errors
  | stray {line : Nat} {text rest : List Char} {n : UInt32} {tokens : List Token}
      {errors : List SyntaxError} (h : Piece.Leads .stray text rest) (hn : n.toNat = line + text.count '\n')
      (hrest : LaidOut (line + text.count '\n') rest tokens errors) :
      LaidOut line (text ++ rest) tokens (⟨n, .unspecified, "Unexpected character."⟩ :: errors)
  | openString {line : Nat} {text : List Char} {n : UInt32} (h : Piece.Leads .openString text [])
      (hn : n.toNat = line + text.count '\n') :
      LaidOut line text [] [⟨n, .unspecified, "Unterminated string."⟩]

namespace Piece

variable {line : UInt32} {tokens : List Token} {errors : List SyntaxError}

/-- The pieces of a text are a layout of it. -/
theorem laidOut_pieces (h : line.toNat + cs.count '\n' < 2 ^ 32) :
    LaidOut line.toNat cs ((pieces line cs).filterMap token?) ((pieces line cs).filterMap error?) := by
  induction hn : cs.length using Nat.strongRecOn generalizing line cs with
  | ind n ih =>
    cases cs with
    | nil =>
      rw [pieces_nil]
      exact .done line.toNat
    | cons c cs =>
      obtain ⟨role, text, rest, rfl, -, hleads⟩ := exists_leads c cs
      rw [← List.cons_append] at h hn ⊢
      obtain ⟨hline, hlt⟩ := toNat_newlines_of_append h
      have hrest := ih rest.length (by simp [← hn]) hlt rfl
      rw [hline] at hrest
      rw [pieces_of_leads hleads]
      cases role with
      | gap => exact .gap hleads hrest
      | token kind => exact .token hleads hline hrest
      | stray => exact .stray hleads hline hrest
      | openString =>
        -- an open string goes on to the end, so nothing is left to lay out
        obtain rfl := hleads.rest_eq_nil
        rw [List.append_nil, pieces_nil]
        exact .openString hleads hline

/-- There is no other layout. -/
theorem eq_pieces_of_laidOut {n : Nat} (h : LaidOut n cs tokens errors) (hn : line.toNat = n)
    (hlt : line.toNat + cs.count '\n' < 2 ^ 32) :
    tokens = (pieces line cs).filterMap token? ∧ errors = (pieces line cs).filterMap error? := by
  induction h generalizing line with subst hn
  | done => simp
  | gap h hrest ih =>
    obtain ⟨hline, hlt⟩ := toNat_newlines_of_append hlt
    obtain ⟨rfl, rfl⟩ := ih hline hlt
    rw [pieces_of_leads h]
    exact ⟨rfl, rfl⟩
  | token h hend hrest ih =>
    obtain ⟨hline, hlt⟩ := toNat_newlines_of_append hlt
    obtain ⟨rfl, rfl⟩ := ih hline hlt
    obtain rfl := line_eq_of_toNat hend
    rw [pieces_of_leads h]
    exact ⟨rfl, rfl⟩
  | stray h hend hrest ih =>
    obtain ⟨hline, hlt⟩ := toNat_newlines_of_append hlt
    obtain ⟨rfl, rfl⟩ := ih hline hlt
    obtain rfl := line_eq_of_toNat hend
    rw [pieces_of_leads h]
    exact ⟨rfl, rfl⟩
  | openString h hend =>
    have hpieces := pieces_of_leads h line
    rw [List.append_nil, pieces_nil] at hpieces
    obtain rfl := line_eq_of_toNat hend
    rw [hpieces]
    exact ⟨rfl, rfl⟩

end Piece

/-- The tokens of a layout match the rules. -/
theorem LaidOut.exists_matches {line : Nat} {cs : List Char} {tokens : List Token}
    {errors : List SyntaxError} (h : LaidOut line cs tokens errors) :
    ∀ t ∈ tokens, ∃ text, t.kind.Matches text ∧ t.lexeme = String.ofList text ∧
      t.literal = t.kind.literal? text := by
  induction h with
  | done | openString => exact fun t ht => by cases ht
  | gap h hrest ih | stray h hend hrest ih => exact ih
  | @token line kind text rest n tokens errors h hend hrest ih =>
    refine List.forall_mem_cons.2 ⟨⟨text, ?_, rfl, rfl⟩, ih⟩
    cases h
    assumption

namespace Token.Kind
variable {kind : Kind} {text : List Char}

/-- The kinds whose texts are in no list. -/
def unlisted : List Kind := [identifier, string, number, eof]

theorem notMem_unlisted_of_punctuation (h : (text, kind) ∈ punctuation) : kind ∉ unlisted := by
  have hall : ∀ entry ∈ punctuation, entry.2 ∉ unlisted := by decide
  exact hall _ h

theorem notMem_unlisted_of_keyword {word : String} (h : (word, kind) ∈ keywords) : kind ∉ unlisted := by
  have hall : ∀ entry ∈ keywords, entry.2 ∉ unlisted := by decide
  exact hall _ h

theorem Matches.ne_eof (h : kind.Matches text) : kind ≠ .eof := by
  rintro rfl
  cases h with
  | punctuation h => exact notMem_unlisted_of_punctuation h (by decide)
  | keyword h => exact notMem_unlisted_of_keyword h (by decide)

theorem exists_body_of_matches (h : string.Matches text) :
    ∃ body, '"' ∉ body ∧ text = '"' :: (body ++ ['"']) := by
  cases h with
  | punctuation h => exact absurd (by decide) (notMem_unlisted_of_punctuation h)
  | keyword h => exact absurd (by decide) (notMem_unlisted_of_keyword h)
  | string h => exact ⟨_, h, rfl⟩

end Token.Kind

namespace Scanned

/-- A source has one layout. Its tokens with the end marker after them, and its errors, are what is
scanned. -/
theorem laidOut_iff (source : String) (h : source.toList.count '\n' < 2 ^ 32 - 1) :
    ∃ (tokens : List Token) (eof : Token), (ofSource source).tokens = tokens ++ [eof] ∧
      eof.kind = .eof ∧ eof.lexeme = "" ∧ eof.literal = none ∧
      eof.line.toNat = 1 + source.toList.count '\n' ∧
      (∀ t ∈ tokens, t.kind ≠ .eof) ∧
      (∀ t ∈ tokens, t.kind = .string → ∃ value : String, '"' ∉ value.toList ∧
        t.lexeme = "\"" ++ value ++ "\"" ∧ t.literal = some (.string value)) ∧
      ∀ (tokens' : List Token) (errors' : List SyntaxError), LaidOut 1 source.toList tokens' errors' ↔
        tokens' = tokens ∧ errors' = (ofSource source).errors := by
  have hlt : (1 : UInt32).toNat + source.toList.count '\n' < 2 ^ 32 := by
    rw [UInt32.toNat_one]
    omega
  have hlayout := Piece.laidOut_pieces hlt
  have hend := Piece.toNat_newlines hlt
  rw [UInt32.toNat_one] at hlayout hend
  refine ⟨_, _, rfl, rfl, rfl, rfl, hend, fun t ht => ?_, fun t ht hkind => ?_,
    fun tokens' errors' => ⟨fun h' => ?_, ?_⟩⟩
  · obtain ⟨text, hmatches, -⟩ := hlayout.exists_matches t ht
    exact hmatches.ne_eof
  · obtain ⟨text, hmatches, hlexeme, hliteral⟩ := hlayout.exists_matches t ht
    rw [hkind] at hmatches hliteral
    obtain ⟨body, hbody, rfl⟩ := Token.Kind.exists_body_of_matches hmatches
    refine ⟨String.ofList body, by rwa [String.toList_ofList], ?_, ?_⟩
    · rw [hlexeme, ← String.toList_inj]
      simp
    · rw [hliteral, Token.Kind.literal?, List.tail_cons, List.dropLast_concat]
  · exact Piece.eq_pieces_of_laidOut h' UInt32.toNat_one hlt
  · rintro ⟨rfl, rfl⟩
    exact hlayout

/-- A comment ends with its line, a string goes on over lines, a point with no digit after it is a token of
its own, and the last quote is not closed. -/
theorem laidOut_iff_unclosed :
    let source := "x //\n@ \"a\nb\"1. \""
    source.toList.count '\n' < 2 ^ 32 - 1 ∧
      ∃ tokens : List Token, tokens.map Token.kind = [.identifier, .string, .number, .dot] ∧
        LaidOut 1 source.toList tokens
          [⟨2, .unspecified, "Unexpected character."⟩, ⟨3, .unspecified, "Unterminated string."⟩] := by
  intro source
  have hkinds : (ofSource source).tokens.map Token.kind =
      [.identifier, .string, .number, .dot, .eof] := by decide +kernel
  have herrors : (ofSource source).errors =
      [⟨2, .unspecified, "Unexpected character."⟩, ⟨3, .unspecified, "Unterminated string."⟩] := by
    decide +kernel
  have hlt : source.toList.count '\n' < 2 ^ 32 - 1 := by decide +kernel
  obtain ⟨tokens, eof, htokens, heof, -, -, -, -, -, hlayout⟩ := laidOut_iff source hlt
  rw [htokens, List.map_append, List.map_singleton, heof] at hkinds
  refine ⟨hlt, tokens, List.append_cancel_right hkinds, ?_⟩
  rw [← herrors]
  exact (hlayout _ _).2 ⟨rfl, rfl⟩

end Scanned
end BlockScript
