import BlockScript.Proofs.Doubles

/-!
# What doubles stand for

The bits of a double are read as the model of doubles has it: a sign, an exponent and a significand. The
number that they stand for is a whole number of units, and negation changes the sign bit alone.
-/
namespace BlockScript.BinaryNumber
open Float.Model Float.Model.UnpackedFloat

/-! ### Fields -/

section Fields
variable (b : BitVec Format.binary64.numBits)

theorem toNat_unpackMantissa : (unpackMantissa b).toNat = b.toNat % signBit % 2 ^ 52 := by
  have hfield : (unpackMantissa b).toNat = b.toNat % 2 ^ 52 := by simp [unpackMantissa]
  rw [hfield, signBit_eq]
  omega

theorem toNat_unpackExponent : (unpackExponent b).toNat = b.toNat % signBit / 2 ^ 52 := by
  have hfield : (unpackExponent b).toNat = b.toNat / 2 ^ 52 % 2 ^ 11 := by
    simp [unpackExponent, Nat.shiftRight_eq_div_pow]
  rw [hfield, signBit_eq]
  omega

theorem toNat_unpackSign : (unpackSign b).toNat = b.toNat / signBit := by
  have hfield : (unpackSign b).toNat = b.toNat / 2 ^ 63 % 2 := by
    simp [unpackSign, Nat.shiftRight_eq_div_pow]
  have hlt : b.toNat < 2 ^ 64 := b.isLt
  rw [hfield, signBit_eq]
  omega

end Fields

/-! ### Unpacked doubles -/

/-- The sign that the sign bit stands for. -/
def signOf (negative : Bool) : Sign := if negative then .negative else .positive

theorem ofBitVec_unpackSign (b : BitVec Format.binary64.numBits) :
    Sign.ofBitVec (unpackSign b) = signOf (signBit ≤ b.toNat) := by
  have hlt : b.toNat < 2 ^ 64 := b.isLt
  have hsign := toNat_unpackSign b
  rw [signBit_eq] at hsign ⊢
  have hzero : unpackSign b = 0#1 ↔ ¬ 2 ^ 63 ≤ b.toNat := by
    rw [← BitVec.toNat_inj, hsign, BitVec.toNat_zero]
    omega
  rw [Sign.ofBitVec, signOf]
  by_cases h : 2 ^ 63 ≤ b.toNat
  · rw [if_neg (mt hzero.1 (not_not_intro h)), if_pos (decide_eq_true h)]
  · rw [if_pos (hzero.2 h), if_neg (mt of_decide_eq_true h)]

/-- The number that one unit is. -/
def unit : ℚ := 2 ^ (-1074 : ℤ)

theorem unit_pos : 0 < unit := zpow_pos two_pos _

theorem two_pow_mul_unit (k : Nat) : 2 ^ k * unit = 2 ^ ((k : ℤ) - 1074) := by
  rw [unit, ← zpow_natCast, ← zpow_add₀ two_ne_zero, sub_eq_add_neg]

/-- What the sign and the pattern of the magnitude stand for. -/
inductive Unpacks (sign : Sign) (b : Nat) : UnpackedFloat → Prop where
  | notANumber (h : BinaryNumber.infinity < b) : Unpacks sign b .notANumber
  | infinity (h : b = BinaryNumber.infinity) : Unpacks sign b (.infinity sign)
  | zero (h : b = 0) : Unpacks sign b (.zero sign)
  | finite {mantissa : Nat} {exponent : Int} {hpos : 0 < mantissa} (h : b < BinaryNumber.infinity)
      (hvalue : (mantissa : ℚ) * 2 ^ exponent = units b * unit) :
      Unpacks sign b (.finite sign mantissa exponent hpos)

theorem units_of_subnormal {b : Nat} (h : b / 2 ^ 52 = 0) : units b = b % 2 ^ 52 := by
  rw [units_eq, step, h]
  omega

theorem units_of_normal {b : Nat} (h : b / 2 ^ 52 ≠ 0) :
    units b = (2 ^ 52 + b % 2 ^ 52) * 2 ^ (b / 2 ^ 52 - 1) := by
  have hb : b - (b / 2 ^ 52 - 1) * 2 ^ 52 = 2 ^ 52 + b % 2 ^ 52 := by omega
  rw [units_eq, step, hb]

theorem unpacks_bits {bits : BitVec Format.binary64.numBits} {b : Nat} (hb : bits.toNat % signBit = b) :
    Unpacks (Sign.ofBitVec (unpackSign bits)) b (UnpackedFloat.unpack Format.binary64 bits) := by
  have hmantissa := toNat_unpackMantissa bits
  have hexponent := toNat_unpackExponent bits
  have hlt : b < 2 ^ 63 := hb ▸ Nat.mod_lt _ (Nat.two_pow_pos 63)
  rw [hb] at hmantissa hexponent
  fun_cases UnpackedFloat.unpack with
  | case1 _ _ _ _ hones hzero =>
    have hexp : b / 2 ^ 52 = 2047 := hexponent.symm.trans (congrArg BitVec.toNat hones)
    have hsig : b % 2 ^ 52 = 0 := hmantissa.symm.trans (congrArg BitVec.toNat hzero)
    refine .infinity ?_
    rw [infinity_eq]
    omega
  | case2 _ _ hones hne =>
    refine .notANumber (Nat.lt_of_not_le fun hle => hne ?_)
    rw [← hb] at hle
    exact unpackMantissa_of_le hle hones
  | case3 _ _ _ _ _ hzero hzero' =>
    have hexp : b / 2 ^ 52 = 0 := hexponent.symm.trans (congrArg BitVec.toNat hzero)
    have hsig : b % 2 ^ 52 = 0 := hmantissa.symm.trans (congrArg BitVec.toNat hzero')
    exact .zero (by omega)
  | case4 mantissaVec _ exponent _ _ _ hzero _ =>
    have hexp : b / 2 ^ 52 = 0 := hexponent.symm.trans (congrArg BitVec.toNat hzero)
    have hsig : mantissaVec.toNat = b % 2 ^ 52 := hmantissa
    have hone : exponent + 1 = -1074 :=
      congrArg (fun field : ℕ => (field : ℤ) - 1075 + 1) (hexponent.trans hexp)
    refine .finite ?_ ?_
    · rw [infinity_eq]
      omega
    · rw [units_of_subnormal hexp, hone, hsig, unit]
  | case5 mantissaVec _ exponent _ _ hones hzero =>
    have hpos : b / 2 ^ 52 ≠ 0 := fun h0 => hzero (BitVec.eq_of_toNat_eq (hexponent.trans h0))
    have hlt : b / 2 ^ 52 ≠ 2047 := fun h0 => hones (BitVec.eq_of_toNat_eq (hexponent.trans h0))
    have hsig : mantissaVec.toNat = b % 2 ^ 52 := hmantissa
    have hfield : exponent = ((b / 2 ^ 52 : ℕ) : ℤ) - 1075 :=
      congrArg (fun field : ℕ => (field : ℤ) - 1075) hexponent
    have hexponent' : exponent = ((b / 2 ^ 52 - 1 : ℕ) : ℤ) - 1074 := by omega
    have hmant : (1#1 ++ mantissaVec).toNat = 2 ^ 52 + b % 2 ^ 52 := by
      rw [BitVec.toNat_append, ← Nat.shiftLeft_add_eq_or_of_lt mantissaVec.isLt, hsig]
      rfl
    refine .finite ?_ ?_
    · rw [infinity_eq]
      omega
    · rw [units_of_normal hpos, hexponent', hmant, ← two_pow_mul_unit, Nat.cast_mul, Nat.cast_pow,
        Nat.cast_ofNat, mul_assoc]

theorem unpacks (x : Float) : Unpacks (signOf (ofFloat x).1) (ofFloat x).2 x.toModel.unpack := by
  have h := @unpacks_bits x.toBits.toBitVec _ rfl
  rw [ofBitVec_unpackSign] at h
  exact h

theorem isNaN_eq_false_iff (x : Float) : x.isNaN = false ↔ (ofFloat x).2 ≤ infinity := by
  have hx := unpacks x
  change x.toModel.unpack.isNaN = false ↔ _
  generalize x.toModel.unpack = u at hx ⊢
  cases hx with
  | notANumber h => exact iff_of_false Bool.noConfusion (Nat.not_le_of_lt h)
  | infinity h => exact iff_of_true rfl h.le
  | zero h => exact iff_of_true rfl (h ▸ Nat.zero_le _)
  | finite h => exact iff_of_true rfl h.le

theorem isFinite_iff (x : Float) : x.isFinite = true ↔ (ofFloat x).2 < infinity := by
  have hx := unpacks x
  change x.toModel.unpack.isFinite = true ↔ _
  generalize x.toModel.unpack = u at hx ⊢
  cases hx with
  | notANumber h => exact iff_of_false Bool.false_ne_true (Nat.lt_asymm h)
  | infinity h => exact iff_of_false Bool.false_ne_true (Nat.not_lt_of_le h.ge)
  | zero h => exact iff_of_true rfl (h ▸ (by decide))
  | finite h => exact iff_of_true rfl h

/-! ### Values -/

/-- The number that an unpacked double stands for. An infinity counts as the power of two that follows the
greatest finite number, and NaN as nothing. -/
def unpackedValue : UnpackedFloat → ℚ
  | .finite sign mantissa exponent _ => sign.apply mantissa * 2 ^ exponent
  | .infinity sign => sign.apply (2 ^ 1024 : ℕ)
  | .zero _ | .notANumber => 0

def value (x : Float) : ℚ := unpackedValue x.toModel.unpack

theorem cast_apply (negative : Bool) (n : Nat) :
    (((signOf negative).apply n : ℤ) : ℚ) = (if negative then -1 else 1) * n := by
  cases negative <;> simp [signOf, Sign.apply]

theorem units_infinity_mul_unit : (units infinity : ℚ) * unit = (2 ^ 1024 : ℕ) := by
  have hexp : infinity / 2 ^ 52 - 1 = 2046 := by decide
  have hsig : 2 ^ 52 + infinity % 2 ^ 52 = 2 ^ 52 := by decide
  have hunits : units infinity = 2 ^ (52 + 2046) := by
    rw [units_of_normal (by decide), hexp, hsig, Nat.pow_add]
  have hinteger : ((52 + 2046 : ℕ) : ℤ) - 1074 = (1024 : ℕ) := by decide
  rw [hunits, Nat.cast_pow, Nat.cast_ofNat, two_pow_mul_unit, hinteger, zpow_natCast, Nat.cast_pow,
    Nat.cast_ofNat]

/-- A double that is not NaN stands for a number of units, with its sign. -/
theorem value_eq {x : Float} (h : (ofFloat x).2 ≤ infinity) :
    value x = (if (ofFloat x).1 then -1 else 1) * (units (ofFloat x).2 * unit) := by
  have hx := unpacks x
  unfold value
  generalize x.toModel.unpack = u at hx ⊢
  cases hx with
  | notANumber hlt => exact absurd h (Nat.not_le_of_lt hlt)
  | infinity heq =>
    rw [heq, units_infinity_mul_unit]
    exact cast_apply (ofFloat x).1 (2 ^ 1024)
  | zero heq =>
    rw [heq, units_of_subnormal rfl]
    simp [unpackedValue]
  | finite _ hvalue => rw [unpackedValue, cast_apply, mul_assoc, hvalue]

theorem value_of_positive {x : Float} (hs : (ofFloat x).1 = false) (h : (ofFloat x).2 ≤ infinity) :
    value x = units (ofFloat x).2 * unit := by
  rw [value_eq h, hs, if_neg Bool.false_ne_true, one_mul]

theorem value_of_negative {x : Float} (hs : (ofFloat x).1 = true) (h : (ofFloat x).2 ≤ infinity) :
    value x = -(units (ofFloat x).2 * unit) := by
  rw [value_eq h, hs, if_pos rfl, neg_one_mul]

theorem magnitude_nonneg (b : Nat) : 0 ≤ units b * unit := mul_nonneg (Nat.cast_nonneg _) unit_pos.le

section Patterns
variable {b b' : Nat}

theorem units_lt (h : b < b') : units b < units b' :=
  Nat.lt_of_lt_of_le (units_lt_succ b) (units_le h)

theorem value_toFloat (h : b ≤ infinity) : value (toFloat b) = units b * unit := by
  have hx := ofFloat_toFloat h
  rw [value_of_positive (by rw [hx]) (by rwa [hx]), hx]

theorem value_toFloat_lt (h : b < b') (h' : b' ≤ infinity) : value (toFloat b) < value (toFloat b') := by
  rw [value_toFloat (h.le.trans h'), value_toFloat h']
  exact mul_lt_mul_of_pos_right (Nat.cast_lt.2 (units_lt h)) unit_pos

theorem isNaN_toFloat (h : b ≤ infinity) : (toFloat b).isNaN = false := by
  rwa [isNaN_eq_false_iff, ofFloat_toFloat h]

theorem toNat_toBits_toFloat_mod_two (h : b ≤ infinity) : (toFloat b).toBits.toNat % 2 = b % 2 := by
  have hmod : (toFloat b).toBits.toNat % signBit = b := congrArg Prod.snd (ofFloat_toFloat h)
  rw [signBit_eq] at hmod
  omega

end Patterns

/-! ### Negation -/

/-- Unless a double is NaN, its sign is kept apart from its exponent and its significand. -/
theorem exists_packComponents {u : UnpackedFloat} (h : u ≠ .notANumber) :
    ∃ sign exponent mantissa,
      UnpackedFloat.pack Format.binary64 u = packComponents Format.binary64 sign exponent mantissa ∧
        UnpackedFloat.pack Format.binary64 u.neg =
          packComponents Format.binary64 (-sign) exponent mantissa := by
  cases u with
  | notANumber => exact absurd rfl h
  | infinity sign => exact ⟨sign, _, _, rfl, rfl⟩
  | zero sign => exact ⟨sign, _, _, rfl, rfl⟩
  | finite sign mantissa exponent hpos =>
    rw [UnpackedFloat.neg, UnpackedFloat.pack, UnpackedFloat.pack]
    dsimp only
    split_ifs
    · exact ⟨sign, _, _, rfl, rfl⟩
    · exact ⟨sign, _, _, rfl, rfl⟩
    · exact ⟨sign, _, _, rfl, rfl⟩

theorem mod_signBit_packComponents (sign : Sign) (exponent : BitVec Format.binary64.exponentBits)
    (mantissa : BitVec Format.binary64.mantissaBitsWithoutImplicit) :
    (packComponents Format.binary64 sign exponent mantissa).toNat % signBit =
      exponent.toNat * 2 ^ 52 + mantissa.toNat := by
  have hexponent := toNat_unpackExponent (packComponents Format.binary64 sign exponent mantissa)
  have hmantissa := toNat_unpackMantissa (packComponents Format.binary64 sign exponent mantissa)
  rw [unpackExponent_packComponents] at hexponent
  rw [unpackMantissa_packComponents] at hmantissa
  omega

theorem signOf_packComponents (sign : Sign) (exponent : BitVec Format.binary64.exponentBits)
    (mantissa : BitVec Format.binary64.mantissaBitsWithoutImplicit) :
    signOf (signBit ≤ (packComponents Format.binary64 sign exponent mantissa).toNat) = sign := by
  rw [← ofBitVec_unpackSign, unpackSign_packComponents, Sign.ofBitVec_toBitVec]

theorem eq_not_of_signOf {negative negative' : Bool} (h : signOf negative' = -signOf negative) :
    negative' = !negative := by
  cases negative <;> cases negative' <;> first | rfl | cases h

/-- Negation changes the sign alone. -/
theorem ofFloat_neg {x : Float} (h : (ofFloat x).2 ≤ infinity) :
    ofFloat (-x) = (!(ofFloat x).1, (ofFloat x).2) := by
  have hnumber : x.toModel.unpack ≠ .notANumber := fun hnan =>
    Bool.noConfusion (((isNaN_eq_false_iff x).2 h).symm.trans (congrArg UnpackedFloat.isNaN hnan))
  obtain ⟨sign, exponent, mantissa, hpack, hneg⟩ := exists_packComponents hnumber
  have hbits : x.toBits.toBitVec = packComponents Format.binary64 sign exponent mantissa :=
    (pack_unpack_of_valid x.toModel.valid).symm.trans hpack
  have hbits' : (-x).toBits.toBitVec = packComponents Format.binary64 (-sign) exponent mantissa := hneg
  have hparts (y : Float) :
      ofFloat y = (decide (signBit ≤ y.toBits.toBitVec.toNat), y.toBits.toBitVec.toNat % signBit) := rfl
  rw [hparts, hparts, hbits, hbits', Prod.mk.injEq]
  refine ⟨eq_not_of_signOf ?_, ?_⟩
  · rw [signOf_packComponents, signOf_packComponents]
  · rw [mod_signBit_packComponents, mod_signBit_packComponents]

end BlockScript.BinaryNumber
