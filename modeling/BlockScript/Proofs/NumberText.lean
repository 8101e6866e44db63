import BlockScript.DecimalText
import BlockScript.Proofs.Doubles

/-!
# Numbers are read as they were written

The decimal that is written for a double lies between the midpoints to its neighbours, so it is rounded
back to that double. Its text is a numeral: digits, and after a point more digits if there are any.
-/
namespace BlockScript.DecimalText
open BinaryNumber

theorem tenTo_eq (k : Nat) : tenTo k = 10 ^ k := rfl

theorem tenTo_pos (k : Nat) : 0 < tenTo k := Nat.pow_pos (by decide)

theorem tenTo_add (j k : Nat) : tenTo (j + k) = tenTo j * tenTo k := Nat.pow_add 10 j k

theorem pow_five_pos (k : Nat) : 0 < Nat.pow 5 k := Nat.pow_pos (by decide)

theorem shiftLeft_mul_pow_five (n k : Nat) : (n <<< k) * Nat.pow 5 k = n * tenTo k := by
  rw [Nat.shiftLeft_eq, tenTo_eq, Nat.mul_assoc, show (10 : Nat) = 2 * 5 by rfl, Nat.mul_pow]
  rfl

/-- The number of decimal units in a binary one. -/
def scale : Nat := Nat.pow 5 places

theorem scale_pos : 0 < scale := by
  rw [scale]
  exact pow_five_pos places

theorem exact_eq (b : Nat) : exact b = units b * scale := by
  rw [exact, scale]

theorem shiftLeft_mul_scale (n : Nat) : (n <<< 1074) * scale = n * tenTo places := by
  rw [scale, ← shiftLeft_mul_pow_five n places, places]

theorem exact_le {b b' : Nat} (h : b ≤ b') : exact b ≤ exact b' := by
  rw [exact_eq, exact_eq]
  exact Nat.mul_le_mul_right scale (units_le h)

theorem exact_lt_succ (b : Nat) : exact b < exact (b + 1) := by
  rw [exact_eq, exact_eq]
  exact Nat.mul_lt_mul_of_pos_right (units_lt_succ b) scale_pos

/-! ### The decimal that is chosen -/

theorem readsBack_iff (b n : Nat) :
    readsBack b n = true ↔
      (exact (b - 1) + exact b ≤ 2 * n ∧ 2 * n ≤ exact b + exact (b + 1)) ∧
        (b % 2 = 1 → exact (b - 1) + exact b < 2 * n ∧ 2 * n < exact b + exact (b + 1)) := by
  unfold readsBack
  dsimp only
  split
  · simp
    omega
  · simp
    omega

theorem readsBack_exact (b : Nat) : readsBack b (exact b) = true := by
  have hle : exact (b - 1) ≤ exact b := exact_le (Nat.sub_le b 1)
  have hlt := exact_lt_succ b
  rw [readsBack_iff]
  refine ⟨by omega, fun hb => ?_⟩
  have hlt' : exact (b - 1) < exact b := by
    have h := exact_lt_succ (b - 1)
    rwa [Nat.sub_add_cancel (by omega)] at h
  omega

theorem readsBack_gridPoint {b j n : Nat} (h : gridPoint b j = some n) : readsBack b n = true := by
  unfold gridPoint at h
  dsimp only at h
  split at h
  · next hl hu =>
    split at h
    · cases h
      exact hl
    · cases h
      exact hu
  · next hl hu =>
    cases h
    exact hl
  · next hl hu =>
    cases h
    exact hu
  · cases h

theorem readsBack_shortestFrom (b j : Nat) : readsBack b (shortestFrom b j) = true := by
  induction j with
  | zero => exact readsBack_exact b
  | succ j ih =>
    rw [shortestFrom]
    cases hg : gridPoint b (j + 1) with
    | none => exact ih
    | some n => exact readsBack_gridPoint hg

/-- Comparisons in decimal units are comparisons of fractions in binary units. -/
theorem mul_scale_le_iff {x n m den : Nat} (hden : 0 < den) (h : n * den = m * scale) :
    x * scale ≤ 2 * n ↔ x * den ≤ 2 * m := by
  calc x * scale ≤ 2 * n
      ↔ x * scale * den ≤ 2 * n * den := (Nat.mul_le_mul_right_iff hden).symm
    _ ↔ x * den * scale ≤ 2 * m * scale := by
        rw [Nat.mul_right_comm x scale den, Nat.mul_assoc 2 n den, h, Nat.mul_assoc 2 m scale]
    _ ↔ x * den ≤ 2 * m := Nat.mul_le_mul_right_iff scale_pos

theorem le_mul_scale_iff {x n m den : Nat} (hden : 0 < den) (h : n * den = m * scale) :
    2 * n ≤ x * scale ↔ 2 * m ≤ x * den := by
  calc 2 * n ≤ x * scale
      ↔ 2 * n * den ≤ x * scale * den := (Nat.mul_le_mul_right_iff hden).symm
    _ ↔ 2 * m * scale ≤ x * den * scale := by
        rw [Nat.mul_right_comm x scale den, Nat.mul_assoc 2 n den, h, Nat.mul_assoc 2 m scale]
    _ ↔ 2 * m ≤ x * den := Nat.mul_le_mul_right_iff scale_pos

theorem readsBack_shortest (b : Nat) : readsBack b (shortest b) = true :=
  readsBack_shortestFrom b _

/-- A decimal `num / 10 ^ k` that reads back as `b` is rounded to `b`. -/
theorem roundsTo_of_readsBack {b n num k : Nat} (h : readsBack b n = true)
    (hn : n * tenTo k = num * tenTo places) : RoundsTo b (num <<< 1074) (tenTo k) := by
  have hm : n * tenTo k = (num <<< 1074) * scale := by rw [hn, shiftLeft_mul_scale]
  obtain ⟨⟨hlow, hhigh⟩, hodd⟩ := (readsBack_iff b n).1 h
  simp only [exact_eq, ← Nat.add_mul] at hlow hhigh hodd
  refine ⟨(mul_scale_le_iff (tenTo_pos k) hm).1 hlow, (le_mul_scale_iff (tenTo_pos k) hm).1 hhigh, ?_, ?_⟩
  · intro hb
    have hlt := (hodd hb).1
    rw [← Nat.not_le] at hlt ⊢
    exact mt (le_mul_scale_iff (tenTo_pos k) hm).2 hlt
  · intro hb
    have hlt := (hodd hb).2
    rw [← Nat.not_le] at hlt ⊢
    exact mt (mul_scale_le_iff (tenTo_pos k) hm).2 hlt

/-! ### Numerals -/

/-- The digits before and after the point; there is no point if none follow it. -/
def numeral (whole fraction : List Char) : List Char :=
  match fraction with
  | [] => whole
  | fraction => whole ++ '.' :: fraction

@[simp] theorem numeral_nil (whole : List Char) : numeral whole [] = whole := rfl

theorem positional_eq (n : Nat) :
    positional n =
      numeral (Nat.toDigits 10 (n / tenTo places)) (fractionDigits places (n % tenTo places)) := by
  unfold positional numeral
  rfl

/-- The digits of a fraction are those of its numerator, up to zeros at the end. -/
theorem ofDigitChars_fractionDigits {k n : Nat} (hn : n < tenTo k) (start : Nat) :
    (fractionDigits k n).length ≤ k ∧
      Nat.ofDigitChars 10 (fractionDigits k n) start * tenTo (k - (fractionDigits k n).length) =
        start * tenTo k + n := by
  induction k generalizing n start with
  | zero =>
    obtain rfl : n = 0 := by
      simpa [tenTo] using hn
    simp [fractionDigits, Nat.ofDigitChars]
  | succ k ih =>
    rw [fractionDigits]
    split
    · next h => simp [Nat.ofDigitChars, h]
    · have hd : n / tenTo k < 10 := by
        apply Nat.div_lt_of_lt_mul
        rwa [tenTo_eq, ← Nat.pow_succ]
      obtain ⟨hl, hv⟩ := ih (Nat.mod_lt n (tenTo_pos k)) (10 * start + n / tenTo k)
      refine ⟨by simpa using hl, ?_⟩
      rw [Nat.ofDigitChars_cons_digitChar_of_lt_ten hd, List.length_cons, Nat.add_sub_add_right, hv]
      have hten : tenTo (k + 1) = 10 * tenTo k := Nat.pow_succ'
      calc (10 * start + n / tenTo k) * tenTo k + n % tenTo k
          = start * (10 * tenTo k) + (tenTo k * (n / tenTo k) + n % tenTo k) := by grind
        _ = start * tenTo (k + 1) + n := by rw [Nat.div_add_mod, hten]

theorem isDigit_of_mem_fractionDigits {k n : Nat} {c : Char} (hn : n < tenTo k)
    (hc : c ∈ fractionDigits k n) : c.isDigit = true := by
  induction k generalizing n with
  | zero => simp [fractionDigits] at hc
  | succ k ih =>
    rw [fractionDigits] at hc
    split at hc
    · cases hc
    · rcases List.mem_cons.1 hc with rfl | hc
      · have hd : n / tenTo k < 10 := by
          apply Nat.div_lt_of_lt_mul
          rwa [tenTo_eq, ← Nat.pow_succ]
        simpa [Nat.isDigit_digitChar] using hd
      · exact ih (Nat.mod_lt n (tenTo_pos k)) hc

/-- The text of a magnitude is a numeral. -/
theorem positional_eq_numeral (n : Nat) :
    ∃ whole fraction, positional n = numeral whole fraction ∧ whole ≠ [] ∧
      (∀ c ∈ whole, c.isDigit = true) ∧ ∀ c ∈ fraction, c.isDigit = true :=
  ⟨_, _, positional_eq n, Nat.toDigits_ne_nil,
    fun _ hc => Nat.isDigit_of_mem_toDigits (Nat.zero_lt_succ 9) (Nat.le_refl 10) hc,
    fun _ hc => isDigit_of_mem_fractionDigits (Nat.mod_lt n (tenTo_pos places)) hc⟩

theorem read_numeral {whole fraction : List Char} (hw : '.' ∉ whole) :
    read (numeral whole fraction) =
      toFloat (nearest (Nat.ofDigitChars 10 (whole ++ fraction) 0) (tenTo fraction.length)) := by
  have hpos : ∀ c ∈ whole, (c != '.') = true := by
    intro c hc
    simp only [bne_iff_ne, ne_eq]
    rintro rfl
    exact hw hc
  cases fraction with
  | nil =>
    have ht := @List.takeWhile_append_of_pos Char _ whole [] hpos
    have hd := @List.dropWhile_append_of_pos Char _ whole [] hpos
    rw [List.append_nil] at ht hd
    simp only [read, numeral, ht, hd]
    simp
  | cons c cs =>
    simp only [read, numeral]
    rw [List.takeWhile_append_of_pos hpos, List.dropWhile_append_of_pos hpos]
    simp

/-- The text of a number reads as that number. -/
theorem read_positional {b n : Nat} (hb : b ≤ infinity) (h : readsBack b n = true) :
    read (positional n) = toFloat b := by
  have hpoint : '.' ∉ Nat.toDigits 10 (n / tenTo places) := by
    intro hc
    have hdigit := Nat.isDigit_of_mem_toDigits (by decide) (by decide) hc
    exact absurd hdigit (by decide)
  obtain ⟨hl, hv⟩ := ofDigitChars_fractionDigits (Nat.mod_lt n (tenTo_pos places)) (n / tenTo places)
  rw [positional_eq, read_numeral hpoint, Nat.ofDigitChars_append, Nat.ofDigitChars_ten_toDigits]
  obtain ⟨fraction, hf⟩ : ∃ fraction, fractionDigits places (n % tenTo places) = fraction := ⟨_, rfl⟩
  rw [hf] at hl hv ⊢
  have hvalue : n * tenTo fraction.length =
      Nat.ofDigitChars 10 fraction (n / tenTo places) * tenTo places := by
    calc n * tenTo fraction.length
        = (tenTo places * (n / tenTo places) + n % tenTo places) * tenTo fraction.length := by
          rw [Nat.div_add_mod]
      _ = Nat.ofDigitChars 10 fraction (n / tenTo places) *
            tenTo (places - fraction.length + fraction.length) := by
          rw [tenTo_add, ← Nat.mul_assoc, hv, Nat.mul_comm (tenTo places)]
      _ = Nat.ofDigitChars 10 fraction (n / tenTo places) * tenTo places := by
          rw [Nat.sub_add_cancel hl]
  rw [nearest_eq (tenTo_pos _) (roundsTo_of_readsBack h hvalue), Nat.min_eq_left hb]

/-- The text of a finite number is that of its magnitude, with a sign in front if it is negative. -/
theorem write_of_finite {x : Float} (h : (ofFloat x).2 < infinity) :
    write x =
      if (ofFloat x).1 then '-' :: positional (shortest (ofFloat x).2)
      else positional (shortest (ofFloat x).2) := by
  have hn : ¬ infinity < (ofFloat x).2 := by omega
  have he : ¬ (ofFloat x).2 = infinity := by omega
  simp only [write, hn, he, if_false]

theorem write_of_ofFloat {x : Float} {b : Nat} (hx : ofFloat x = (false, b)) (hb : b < infinity) :
    write x = positional (shortest b) := by
  have hfinite : (ofFloat x).2 < infinity := by rwa [hx]
  rw [write_of_finite hfinite]
  simp only [hx, Bool.false_eq_true, if_false]

/-- A finite number without a sign is read as it was written. -/
theorem read_write {x : Float} {b : Nat} (hx : ofFloat x = (false, b)) (hb : b < infinity) :
    read (write x) = x := by
  rw [write_of_ofFloat hx hb, read_positional (Nat.le_of_lt hb) (readsBack_shortest b),
    toFloat_of_ofFloat hx]

end BlockScript.DecimalText
