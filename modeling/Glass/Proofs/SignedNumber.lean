import Glass.Proofs.PrintedNumber

/-!
Signs of doubles. Negating a finite double flips its sign bit and leaves the others, and the digits
that are printed do not depend on that bit, so a negative double is printed as a sign and its
negation. Infinities have one pattern of bits for each sign, and there is only one double that is no
number.
-/

namespace Glass.Number

section Bits

open Float.Model (Format UnpackedFloat)
open Float.Model.UnpackedFloat

theorem toNat_packComponents (sign : Sign) (exponent : BitVec 11) (mantissa : BitVec 52) :
    (packComponents Format.binary64 sign exponent mantissa).toNat =
      sign.toBitVec.toNat * 2 ^ 63 + exponent.toNat * 2 ^ 52 + mantissa.toNat := by
  rw [packComponents, BitVec.toNat_append, BitVec.toNat_append,
    ← Nat.shiftLeft_add_eq_or_of_lt mantissa.isLt, ← Nat.shiftLeft_add_eq_or_of_lt exponent.isLt,
    Nat.shiftLeft_eq, Nat.shiftLeft_eq]
  omega

theorem toNat_fields (b : BitVec Format.binary64.numBits) :
    b.toNat = (Sign.ofBitVec (unpackSign b)).toBitVec.toNat * 2 ^ 63 +
      (unpackExponent b).toNat * 2 ^ 52 + (unpackMantissa b).toNat := by
  rw [← toNat_packComponents, packComponents_unpackSign_unpackExponent_unpackMantissa]

theorem unpack_neg (sign : Sign) (exponent : BitVec 11) (mantissa : BitVec 52) :
    unpack Format.binary64 (packComponents Format.binary64 (-sign) exponent mantissa) =
      (unpack Format.binary64 (packComponents Format.binary64 sign exponent mantissa)).neg := by
  simp only [unpack, unpackMantissa_packComponents, unpackExponent_packComponents,
    unpackSign_packComponents, Sign.ofBitVec_toBitVec]
  split
  · split <;> rfl
  · split
    · split <;> rfl
    · rfl

/-- Packing a double with the other sign changes nothing but the sign. -/
theorem pack_neg_unpack {b : BitVec Format.binary64.numBits} (hones : unpackExponent b ≠ -1#11) :
    pack Format.binary64 (unpack Format.binary64 b).neg =
      packComponents Format.binary64 (-Sign.ofBitVec (unpackSign b)) (unpackExponent b)
        (unpackMantissa b) := by
  have hunpack := unpack_neg (.ofBitVec (unpackSign b)) (unpackExponent b) (unpackMantissa b)
  rw [packComponents_unpackSign_unpackExponent_unpackMantissa] at hunpack
  rw [← hunpack]
  refine pack_unpack_of_valid ⟨fun hexponent => ?_⟩
  rw [unpackExponent_packComponents] at hexponent
  exact absurd hexponent hones

theorem toNat_sign (x : Float) :
    (Sign.ofBitVec (@unpackSign Format.binary64 x.toBits.toBitVec)).toBitVec.toNat =
      if isNegative x then 1 else 0 := by
  have hfields := toNat_fields x.toBits.toBitVec
  have hexponent := (@unpackExponent Format.binary64 x.toBits.toBitVec).isLt
  have hmantissa := (@unpackMantissa Format.binary64 x.toBits.toBitVec).isLt
  change x.toBits.toNat = _ at hfields
  change _ < 2 ^ 11 at hexponent
  change _ < 2 ^ 52 at hmantissa
  simp only [isNegative, signBit, Nat.pow_eq, decide_eq_true_eq, hfields]
  cases Sign.ofBitVec (@unpackSign Format.binary64 x.toBits.toBitVec) with
  | negative => simp [Sign.toBitVec]; omega
  | positive => simp [Sign.toBitVec]; omega

theorem exponent_eq_ones_iff (x : Float) :
    @unpackExponent Format.binary64 x.toBits.toBitVec = -1#11 ↔
      x.toBits.toNat / hiddenBit % 2048 = 2047 := by
  have hfield : (@unpackExponent Format.binary64 x.toBits.toBitVec).toNat =
      x.toBits.toNat / hiddenBit % 2048 := by
    have hshift : x.toBits.toNat >>> 52 = x.toBits.toNat / hiddenBit := Nat.shiftRight_eq_div_pow ..
    simp [unpackExponent, hshift]
  rw [← BitVec.toNat_inj, hfield]
  rfl

/-- Negation flips the sign bit and leaves the others. -/
theorem toBits_neg {x : Float} (hfinite : isFinite x = true) :
    (-x).toBits.toNat + (if isNegative x then signBit else 0) =
      x.toBits.toNat + (if isNegative x then 0 else signBit) := by
  have hpack := congrArg BitVec.toNat
    (pack_neg_unpack (mt (exponent_eq_ones_iff x).mp (exponent_of_isFinite hfinite)))
  have hfields := toNat_fields x.toBits.toBitVec
  have hsign := toNat_sign x
  rw [toNat_packComponents] at hpack
  change (-x).toBits.toNat = _ at hpack
  change x.toBits.toNat = _ at hfields
  rw [hpack, hfields]
  generalize Sign.ofBitVec (@unpackSign Format.binary64 x.toBits.toBitVec) = sign at hsign
  have hflip : (-sign).toBitVec.toNat + sign.toBitVec.toNat = 1 := by cases sign <;> rfl
  rw [hsign] at hflip ⊢
  split <;> simp_all [signBit] <;> omega

/-- A double is finite if its exponent is not all ones. -/
theorem isFinite_of_exponent {x : Float} (h : x.toBits.toNat / hiddenBit % 2048 ≠ 2047) :
    isFinite x = true := by
  change (!(unpack Format.binary64 x.toBits.toBitVec).isNaN &&
    !(unpack Format.binary64 x.toBits.toBitVec).isInf) = true
  rw [unpack]
  simp only
  rw [if_neg (mt (exponent_eq_ones_iff x).mp h)]
  split
  · split <;> rfl
  · rfl

theorem magnitude_of_isInf {x : Float} (h : x.isInf = true) :
    x.toBits.toNat % signBit = infinityBits := by
  have hfields := toNat_fields x.toBits.toBitVec
  have hsign := toNat_sign x
  change (unpack Format.binary64 x.toBits.toBitVec).isInf = true at h
  rw [unpack] at h
  simp only at h
  split at h
  next hones =>
    split at h
    next hzero =>
      rw [hones, hzero, hsign] at hfields
      change x.toBits.toNat = _ * _ + 2047 * 2 ^ 52 + 0 at hfields
      simp only [hfields, infinityBits, signBit, hiddenBit, Nat.pow_eq]
      split <;> rfl
    next => cases h
  next =>
    split at h
    · split at h <;> cases h
    · cases h

theorem not_isNaN_of_isInf {x : Float} (h : x.isInf = true) : x.isNaN = false := by
  change (unpack Format.binary64 x.toBits.toBitVec).isInf = true at h
  change (unpack Format.binary64 x.toBits.toBitVec).isNaN = false
  cases hunpack : unpack Format.binary64 x.toBits.toBitVec with
  | infinity sign => rfl
  | _ =>
      rw [hunpack] at h
      cases h

end Bits

theorem isFinite_of_not {x : Float} (hnan : ¬x.isNaN = true) (hinf : ¬x.isInf = true) :
    isFinite x = true := by
  rw [isFinite, Bool.eq_false_iff.mpr hnan, Bool.eq_false_iff.mpr hinf]
  rfl

theorem isNegative_iff {x : Float} : isNegative x = true ↔ signBit ≤ x.toBits.toNat := by
  simp [isNegative]

theorem eq_of_magnitude {x y : Float} (hsign : isNegative x = isNegative y)
    (hbits : x.toBits.toNat % signBit = y.toBits.toNat % signBit) : x = y := by
  rw [← ofSignAndBits_self x, ← ofSignAndBits_self y, hsign, hbits]

section Negation

variable {x : Float} (hfinite : isFinite x = true)
include hfinite

theorem magnitude_neg : (-x).toBits.toNat % signBit = x.toBits.toNat % signBit := by
  have hneg := toBits_neg hfinite
  split at hneg
  · rw [← Nat.add_mod_right, hneg, Nat.add_zero]
  · rw [← Nat.add_mod_right x.toBits.toNat, ← hneg, Nat.add_zero]

theorem isNegative_neg : isNegative (-x) = !isNegative x := by
  have hneg := toBits_neg hfinite
  have hlt : x.toBits.toNat < 2 * signBit := x.toBits.toNat_lt
  cases hsign : isNegative x with
  | true =>
      rw [hsign, if_pos rfl, if_pos rfl] at hneg
      rw [Bool.not_true, Bool.eq_false_iff, Ne, isNegative_iff]
      omega
  | false =>
      rw [hsign, if_neg (by decide), if_neg (by decide)] at hneg
      rw [Bool.not_false, isNegative_iff]
      omega

theorem not_isNegative_neg (hsign : isNegative x = true) : isNegative (-x) = false := by
  rw [isNegative_neg hfinite, hsign]
  rfl

theorem isFinite_neg : isFinite (-x) = true := by
  have hexponent := exponent_of_isFinite hfinite
  have hmagnitude := magnitude_neg hfinite
  apply isFinite_of_exponent
  simp only [hiddenBit, signBit, Nat.pow_eq] at *
  omega

theorem neg_neg_self : -(-x) = x := by
  apply eq_of_magnitude
  · rw [isNegative_neg (isFinite_neg hfinite), isNegative_neg hfinite, Bool.not_not]
  · rw [magnitude_neg (isFinite_neg hfinite), magnitude_neg hfinite]

end Negation

/-- The digits of a double depend on its magnitude alone. -/
theorem shortestDecimal_congr {x y : Float}
    (h : x.toBits.toNat % signBit = y.toBits.toNat % signBit) :
    shortestDecimal x = shortestDecimal y := by
  have hunits : units x = units y := by rw [units_eq, units_eq, h]
  have hsearch (count : Nat) (exponent : Int) :
      searchGrids x count exponent = searchGrids y count exponent := by
    induction count generalizing exponent with
    | zero => rw [searchGrids, searchGrids, exactDecimal, exactDecimal, hunits]
    | succ count ih =>
        simp only [searchGrids, neighbours, hunits, h]
        rw [ih]
  simp only [shortestDecimal, decimalOrder, hunits, hsearch]

end Glass.Number

namespace Glass.NumberStyle

/-- A negative double is printed as a sign and its negation. -/
theorem printed_negative {x : Float} (hfinite : Number.isFinite x = true)
    (hsign : Number.isNegative x = true) :
    printed.text x = "-" ++ printed.text (-x) := by
  have hshortest := Number.shortestDecimal_congr (Number.magnitude_neg hfinite)
  have hpositive := Number.not_isNegative_neg hfinite hsign
  have hfinite' := Number.isFinite_neg hfinite
  rw [Number.isFinite, Bool.and_eq_true, Bool.not_eq_true', Bool.not_eq_true'] at hfinite hfinite'
  simp only [text, hfinite.1, hfinite.2, hfinite'.1, hfinite'.2, hsign, hpositive, hshortest]
  simp

theorem printed_isNaN {x : Float} (h : x.isNaN = true) : printed.text x = "NaN" := if_pos h

theorem printed_isInf {x : Float} (h : x.isInf = true) :
    printed.text x = if Number.isNegative x then "-inf" else "inf" := by
  have hnan : x.isNaN = false := Number.not_isNaN_of_isInf h
  simp only [text, hnan, h, printed]
  cases Number.isNegative x <;> simp

/-- A printed double starts with a digit or sign, or with a letter of its own. -/
theorem printed_head (x : Float) :
    ∃ c more, (printed.text x).toList = c :: more ∧ (c.isDigit = true ∨ c ∈ ['-', 'N', 'i']) := by
  by_cases hnan : x.isNaN = true
  · exact ⟨'N', ['a', 'N'], by rw [printed_isNaN hnan]; rfl, by simp⟩
  by_cases hinf : x.isInf = true
  · rw [printed_isInf hinf]
    cases Number.isNegative x with
    | true => exact ⟨'-', ['i', 'n', 'f'], rfl, by simp⟩
    | false => exact ⟨'i', ['n', 'f'], rfl, by simp⟩
  have hfinite := Number.isFinite_of_not hnan hinf
  cases hsign : Number.isNegative x with
  | true =>
      rw [printed_negative hfinite hsign, String.toList_append]
      exact ⟨'-', _, rfl, by simp⟩
  | false =>
      obtain ⟨c, more, htext, hdigit⟩ := printed_first hfinite hsign
      exact ⟨c, more, htext, Or.inl hdigit⟩

/-- The double that a text starts with, in its printed form. -/
def readPrinted : List Char → Float
  | 'N' :: _ => Float.nan
  | 'i' :: _ => Number.ofSignAndBits false Number.infinityBits
  | '-' :: 'i' :: _ => Number.ofSignAndBits true Number.infinityBits
  | '-' :: text => -(NumberLiteral.read text).value
  | text => (NumberLiteral.read text).value

theorem readPrinted_unsigned {c : Char} {more : List Char} (h : c.isDigit = true) :
    readPrinted (c :: more) = (NumberLiteral.read (c :: more)).value := by
  -- No digit is a letter or a sign.
  unfold readPrinted
  split
  case h_5 => rfl
  all_goals simp_all

theorem readPrinted_signed {c : Char} {more : List Char} (h : c.isDigit = true) :
    readPrinted ('-' :: c :: more) = -(NumberLiteral.read (c :: more)).value := by
  rw [readPrinted]
  rintro rest hrest
  obtain ⟨rfl, _⟩ := List.cons.inj hrest
  cases h

/-- Every double is found again at the front of its printed form, whatever follows that no number
goes on with. -/
theorem readPrinted_printed (x : Float) {rest : List Char} (hrest : EndsNumber rest) :
    readPrinted ((printed.text x).toList ++ rest) = x := by
  by_cases hnan : x.isNaN = true
  · rw [printed_isNaN hnan]
    rw [Float.isNaN_eq_decide_eq_nan, decide_eq_true_eq] at hnan
    exact hnan.symm
  by_cases hinf : x.isInf = true
  · have hself := Number.ofSignAndBits_self x
    rw [Number.magnitude_of_isInf hinf] at hself
    rw [printed_isInf hinf]
    cases hsign : Number.isNegative x with
    | true =>
        rw [hsign] at hself
        exact hself
    | false =>
        rw [hsign] at hself
        exact hself
  have hfinite := Number.isFinite_of_not hnan hinf
  cases hsign : Number.isNegative x with
  | false =>
      obtain ⟨c, more, htext, hdigit⟩ := printed_first hfinite hsign
      have hread := read_printed hfinite hsign hrest
      rw [htext, List.cons_append] at hread ⊢
      rw [readPrinted_unsigned hdigit, hread]
  | true =>
      have hfinite' := Number.isFinite_neg hfinite
      have hsign' := Number.not_isNegative_neg hfinite hsign
      obtain ⟨c, more, htext, hdigit⟩ := printed_first hfinite' hsign'
      have hread := read_printed hfinite' hsign' hrest
      rw [printed_negative hfinite hsign, String.toList_append, htext]
      rw [htext, List.cons_append] at hread
      change readPrinted ('-' :: c :: (more ++ rest)) = x
      rw [readPrinted_signed hdigit, hread, Number.neg_neg_self hfinite]

end Glass.NumberStyle
