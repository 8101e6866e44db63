import BlockScript.Proofs.DoubleValues

/-!
# Nearest doubles

A number is rounded to the double that is nearest to it, to the one with an even pattern if two are as near,
and to infinity from halfway beyond the finite numbers on. There is one such double only.
-/
namespace BlockScript.BinaryNumber

/-! ### Nearest doubles -/

/-- Whether `x` is the double to which `v` is rounded: it has no sign, none is closer, and if another number is
as close then the last bit of `x` is zero. -/
structure IsNearest (x : Float) (v : ℚ) : Prop where
  unsigned : (ofFloat x).1 = false
  not_isNaN : x.isNaN = false
  closest (y : Float) : y.isNaN = false → |v - value x| ≤ |v - value y|
  even (y : Float) : y.isNaN = false → value y ≠ value x → |v - value y| = |v - value x| →
    x.toBits.toNat % 2 = 0

section Unique
variable {x y : Float} {v : ℚ} {a b : Nat}

theorem IsNearest.exists_pattern (h : IsNearest x v) : ∃ b ≤ infinity, toFloat b = x :=
  ⟨(ofFloat x).2, (isNaN_eq_false_iff x).1 h.not_isNaN, toFloat_of_ofFloat (by rw [← h.unsigned])⟩

theorem IsNearest.not_lt (hx : IsNearest (toFloat a) v) (hy : IsNearest (toFloat b) v) (hb : b ≤ infinity) :
    ¬ a < b := by
  intro hlt
  have hvalue := value_toFloat_lt hlt hb
  have heq := le_antisymm (hx.closest _ hy.not_isNaN) (hy.closest _ hx.not_isNaN)
  have ha' := hx.even _ hy.not_isNaN hvalue.ne' heq.symm
  have hb' := hy.even _ hx.not_isNaN hvalue.ne heq
  rw [toNat_toBits_toFloat_mod_two (hlt.le.trans hb)] at ha'
  rw [toNat_toBits_toFloat_mod_two hb] at hb'
  -- both patterns are even, so there is one between them, and it is closer
  have hbetween : a + 1 < b := by omega
  have hleft := value_toFloat_lt (Nat.lt_succ_self a) (hbetween.le.trans hb)
  have hright := value_toFloat_lt hbetween hb
  have hclosest := hx.closest _ (isNaN_toFloat (hbetween.le.trans hb))
  rcases abs_eq_abs.1 heq with h | h
  · linarith
  · have hbelow : 0 < v - value (toFloat a) := by linarith
    rw [abs_of_pos hbelow] at hclosest
    exact absurd hclosest (not_le_of_gt (abs_lt.2 ⟨by linarith, by linarith⟩))

/-- A number has one nearest double at most. -/
theorem IsNearest.eq (hx : IsNearest x v) (hy : IsNearest y v) : x = y := by
  obtain ⟨a, ha, rfl⟩ := hx.exists_pattern
  obtain ⟨b, hb, rfl⟩ := hy.exists_pattern
  rw [Nat.le_antisymm (Nat.le_of_not_lt (hy.not_lt hx ha)) (Nat.le_of_not_lt (hx.not_lt hy hb))]

end Unique

theorem value_le_or_eq {y : Float} (hy : (ofFloat y).2 ≤ infinity) :
    value y ≤ value (toFloat (infinity - 1)) ∨ value y = value (toFloat infinity) := by
  have hle {b : Nat} (hb : b ≤ infinity - 1) : units b * unit ≤ value (toFloat (infinity - 1)) := by
    rw [value_toFloat (Nat.sub_le infinity 1)]
    exact mul_le_mul_of_nonneg_right (Nat.cast_le.2 (units_le hb)) unit_pos.le
  cases hsign : (ofFloat y).1 with
  | false =>
    rw [value_of_positive hsign hy]
    rcases Nat.lt_or_eq_of_le hy with hlt | heq
    · exact .inl (hle (Nat.le_sub_one_of_lt hlt))
    · right
      rw [heq, value_toFloat (Nat.le_refl infinity)]
  | true =>
    left
    rw [value_of_negative hsign hy]
    exact (neg_nonpos.2 (magnitude_nonneg _)).trans ((magnitude_nonneg _).trans (hle (Nat.zero_le _)))

theorem value_infinity : value (toFloat infinity) = 2 ^ 1024 := by
  rw [value_toFloat (Nat.le_refl infinity), units_infinity_mul_unit, Nat.cast_pow, Nat.cast_ofNat]

/-- The greatest finite number. -/
theorem value_last : value (toFloat (infinity - 1)) = 2 ^ 1024 - 2 ^ 971 := by
  have hstep : step (infinity - 1) = 2 ^ 2045 := by
    have hexp : (infinity - 1) / 2 ^ 52 - 1 = 2045 := by decide
    rw [step, hexp]
  have hunits : units infinity = units (infinity - 1) + 2 ^ 2045 := by
    rw [← hstep, ← units_succ]
    rfl
  have hscaled : (2 : ℚ) ^ 2045 * unit = 2 ^ 971 := by
    have hinteger : ((2045 : ℕ) : ℤ) - 1074 = (971 : ℕ) := by decide
    rw [two_pow_mul_unit, hinteger, zpow_natCast]
  have hinfinity := value_infinity
  rw [value_toFloat (Nat.le_refl infinity), hunits, Nat.cast_add, add_mul, Nat.cast_pow, Nat.cast_ofNat,
    hscaled] at hinfinity
  rw [value_toFloat (Nat.sub_le infinity 1), ← hinfinity, add_sub_cancel_right]

/-- What lies at least halfway from the greatest finite number to the power of two after it is rounded to
infinity. -/
theorem isNearest_infinity_iff (v : ℚ) : IsNearest (toFloat infinity) v ↔ 2 ^ 1024 - 2 ^ 970 ≤ v := by
  have hlt := value_toFloat_lt (show infinity - 1 < infinity by decide) (Nat.le_refl infinity)
  have hhalfway : 2 ^ 1024 - 2 ^ 970 ≤ v ↔
      value (toFloat (infinity - 1)) + value (toFloat infinity) ≤ 2 * v := by
    have hdouble : (2 : ℚ) ^ 971 = 2 ^ 970 * 2 := pow_succ 2 970
    rw [value_last, value_infinity, hdouble]
    generalize (2 : ℚ) ^ 1024 = top
    generalize (2 : ℚ) ^ 970 = half
    constructor <;> intro h <;> linarith
  rw [hhalfway]
  constructor
  · intro h
    have hclosest := h.closest _ (isNaN_toFloat (Nat.sub_le infinity 1))
    by_contra hnot
    have hbelow : v - value (toFloat infinity) < 0 := by linarith
    rw [abs_of_neg hbelow] at hclosest
    exact absurd hclosest (not_le_of_gt (abs_lt.2 ⟨by linarith, by linarith⟩))
  · intro h
    refine ⟨congrArg Prod.fst (ofFloat_toFloat (Nat.le_refl infinity)), isNaN_toFloat (Nat.le_refl infinity),
      fun y hy => ?_, fun y hy _ _ => ?_⟩
    · rcases value_le_or_eq ((isNaN_eq_false_iff y).1 hy) with hle | heq
      · have habove : 0 < v - value y := by linarith
        rw [abs_of_pos habove, abs_le]
        constructor <;> linarith
      · rw [heq]
    · rw [toNat_toBits_toFloat_mod_two (Nat.le_refl infinity)]
      decide

/-- So the double nearest to a number is infinity from there on. -/
theorem IsNearest.eq_infinity_iff {x : Float} {v : ℚ} (h : IsNearest x v) :
    x = toFloat infinity ↔ 2 ^ 1024 - 2 ^ 970 ≤ v := by
  rw [← isNearest_infinity_iff]
  exact ⟨fun hx => hx ▸ h, h.eq⟩

/-! ### Rounding is to the nearest double -/

theorem exists_roundsTo (n : Nat) {den : Nat} (hden : 0 < den) : ∃ b, RoundsTo b n den := by
  obtain ⟨below, hbelow⟩ : ∃ below, floor (n / den) = below := ⟨_, rfl⟩
  have hle : units below * den ≤ n := by
    rw [← Nat.le_div_iff_mul_le hden, ← hbelow]
    exact units_floor_le _
  have hlt : n < units (below + 1) * den := by
    rw [← Nat.div_lt_iff_lt_mul hden, ← hbelow]
    exact lt_units_floor_succ _
  have hbefore : units (below - 1) * den ≤ units below * den :=
    Nat.mul_le_mul_right den (units_le (Nat.sub_le below 1))
  have hbefore' (hodd : below % 2 = 1) : units (below - 1) * den < units below * den :=
    Nat.mul_lt_mul_of_pos_right (units_lt (by omega)) hden
  have hafter : units (below + 1) * den < units (below + 1 + 1) * den :=
    Nat.mul_lt_mul_of_pos_right (units_lt_succ _) hden
  by_cases h : 2 * n < (units below + units (below + 1)) * den ∨
      2 * n = (units below + units (below + 1)) * den ∧ below % 2 = 0
  · rw [Nat.add_mul] at h
    refine ⟨below, ?_, ?_, ?_, ?_⟩ <;> rw [Nat.add_mul] <;> omega
  · rw [Nat.add_mul] at h
    refine ⟨below + 1, ?_, ?_, ?_, ?_⟩ <;> rw [Nat.add_mul] <;> try rw [Nat.add_sub_cancel]
    all_goals omega

/-- The distance of `n / den` from the number with the pattern `b`, times `den`. -/
def distance (n den b : Nat) : Nat := (n - (units b * den : ℕ) : ℤ).natAbs

theorem RoundsTo.distance_le {b n den : Nat} (h : RoundsTo b n den) (hden : 0 < den) (b' : Nat) :
    distance n den b ≤ distance n den b' ∧
      (b' ≠ b → distance n den b' = distance n den b → b % 2 = 0) := by
  obtain ⟨hlow, hhigh, hlow', hhigh'⟩ := h
  rw [Nat.add_mul] at hlow hhigh hlow' hhigh'
  rw [distance, distance]
  rcases Nat.lt_trichotomy b' b with hlt | rfl | hlt
  · have hle : units b' * den ≤ units (b - 1) * den := Nat.mul_le_mul_right den (units_le (by omega))
    have hne : units b' * den < units b * den := Nat.mul_lt_mul_of_pos_right (units_lt hlt) hden
    omega
  · exact ⟨Nat.le_refl _, fun hne => absurd rfl hne⟩
  · have hle : units (b + 1) * den ≤ units b' * den := Nat.mul_le_mul_right den (units_le hlt)
    have hne : units b * den < units b' * den := Nat.mul_lt_mul_of_pos_right (units_lt hlt) hden
    omega

/-- Among the patterns up to that of infinity, none is closer than the nearest one, which is even if another
is as close. -/
theorem distance_nearest_le (num : Nat) {den b : Nat} (hden : 0 < den) (hb : b ≤ infinity) :
    distance (num <<< 1074) den (nearest num den) ≤ distance (num <<< 1074) den b ∧
      (b ≠ nearest num den → distance (num <<< 1074) den b = distance (num <<< 1074) den (nearest num den) →
        nearest num den % 2 = 0) := by
  obtain ⟨c, hc⟩ := exists_roundsTo (num <<< 1074) hden
  rw [nearest_eq hden hc]
  generalize num <<< 1074 = n at hc ⊢
  by_cases hle : c ≤ infinity
  · rw [Nat.min_eq_left hle]
    exact hc.distance_le hden b
  · -- what is rounded is beyond the finite numbers, and infinity is the last pattern
    rw [Nat.min_eq_right (Nat.le_of_not_le hle)]
    have hlow := hc.low
    rw [Nat.add_mul] at hlow
    have hbefore : units infinity * den ≤ units (c - 1) * den :=
      Nat.mul_le_mul_right den (units_le (by omega))
    have hlast : units infinity * den ≤ units c * den := Nat.mul_le_mul_right den (units_le (by omega))
    have hunits : units b * den ≤ units infinity * den := Nat.mul_le_mul_right den (units_le hb)
    refine ⟨?_, fun _ _ => by decide⟩
    rw [distance, distance]
    omega

theorem cast_shiftLeft (n k : Nat) : ((n <<< k : ℕ) : ℚ) = n * 2 ^ k := by
  rw [Nat.shiftLeft_eq]
  push_cast
  rfl

/-- The number of units in a whole number. -/
theorem shiftLeft_mul_unit (n : Nat) : ((n <<< 1074 : ℕ) : ℚ) * unit = n := by
  have hzero : ((1074 : ℕ) : ℤ) - 1074 = 0 := by decide
  rw [cast_shiftLeft, mul_assoc, two_pow_mul_unit, hzero, zpow_zero, mul_one]

theorem abs_div_sub_units (num b : Nat) {den : Nat} (hden : 0 < den) :
    |(num : ℚ) / den - units b * unit| = distance (num <<< 1074) den b * (unit / den) := by
  have hden' : (0 : ℚ) < den := Nat.cast_pos.2 hden
  have hnum := shiftLeft_mul_unit num
  generalize num <<< 1074 = n at hnum ⊢
  have hsub : (num : ℚ) / den - units b * unit = ((n : ℚ) - units b * den) * (unit / den) := by
    rw [← hnum]
    field_simp
  rw [hsub, abs_mul, abs_of_pos (div_pos unit_pos hden'), distance, Nat.cast_natAbs]
  push_cast
  rfl

theorem abs_sub_nearest_le (num : Nat) {den b : Nat} (hden : 0 < den) (hb : b ≤ infinity) :
    |(num : ℚ) / den - units (nearest num den) * unit| ≤
        |(num : ℚ) / den - units b * unit| ∧
      (b ≠ nearest num den →
        |(num : ℚ) / den - units b * unit| =
          |(num : ℚ) / den - units (nearest num den) * unit| → nearest num den % 2 = 0) := by
  have hstep : (0 : ℚ) < unit / den := div_pos unit_pos (Nat.cast_pos.2 hden)
  obtain ⟨hle, heven⟩ := distance_nearest_le num hden hb
  rw [abs_div_sub_units num _ hden, abs_div_sub_units num _ hden, mul_le_mul_iff_left₀ hstep,
    mul_left_inj' hstep.ne', Nat.cast_le, Nat.cast_inj]
  exact ⟨hle, heven⟩

theorem abs_sub_le_abs_sub_neg {v w : ℚ} (hv : 0 ≤ v) (hw : 0 ≤ w) : |v - w| ≤ |v - -w| := by
  rw [sub_neg_eq_add, abs_of_nonneg (add_nonneg hv hw), abs_le]
  constructor <;> linarith

/-- A fraction is rounded to the pattern of the double that is nearest to it. -/
theorem isNearest_toFloat (num : Nat) {den : Nat} (hden : 0 < den) :
    IsNearest (toFloat (nearest num den)) (num / den) := by
  have hle : nearest num den ≤ infinity := Nat.min_le_right _ _
  have hvalue := value_toFloat hle
  have hclosest {b : Nat} (hb : b ≤ infinity) := abs_sub_nearest_le num hden hb
  have hv : (0 : ℚ) ≤ num / den := div_nonneg (Nat.cast_nonneg num) (Nat.cast_nonneg den)
  refine ⟨congrArg Prod.fst (ofFloat_toFloat hle), isNaN_toFloat hle, fun y hy => ?_, fun y hy hne heq => ?_⟩
  · rw [isNaN_eq_false_iff] at hy
    rw [hvalue]
    have hpositive := (hclosest hy).1
    cases hsign : (ofFloat y).1
    · rwa [value_of_positive hsign hy]
    · rw [value_of_negative hsign hy]
      exact hpositive.trans (abs_sub_le_abs_sub_neg hv (magnitude_nonneg _))
  · rw [isNaN_eq_false_iff] at hy
    rw [toNat_toBits_toFloat_mod_two hle]
    rw [hvalue] at hne heq
    cases hsign : (ofFloat y).1
    · rw [value_of_positive hsign hy] at hne heq
      exact (hclosest hy).2 (fun hb => hne (by rw [hb])) heq
    · -- as zero is no closer, a negative number as close is zero itself
      have hzero := (hclosest (Nat.zero_le infinity)).1
      rw [show units 0 = 0 from rfl, Nat.cast_zero, zero_mul, sub_zero, abs_of_nonneg hv] at hzero
      have hy' : units (ofFloat y).2 * unit = 0 := by
        have hnonneg := magnitude_nonneg (ofFloat y).2
        rw [value_of_negative hsign hy, sub_neg_eq_add, abs_of_nonneg (add_nonneg hv hnonneg)] at heq
        exact le_antisymm (by linarith) hnonneg
      rw [value_of_negative hsign hy, hy', neg_zero] at hne heq
      refine (hclosest hy).2 (fun hb => hne ?_) ?_
      · rw [← hb, hy']
      · rw [hy', heq]

end BlockScript.BinaryNumber
