import Mathlib
import Glass.Number.Shortest

/-!
The nearest double of a fraction. Rounding depends on the ratio alone and leaves every double as it
is, so the exact expansion of a double reads back as that double, and so does whatever the search for
fewer digits finds. A double is determined by its sign and the bits below it.
-/

namespace Glass

theorem roundDiv_mul_right (n d : Nat) {k : Nat} (hk : 0 < k) :
    roundDiv (n * k) (d * k) = roundDiv n d := by
  have hquotient : n * k / (d * k) = n / d := Nat.mul_div_mul_right n d hk
  have hrest : n * k % (d * k) = n % d * k := Nat.mul_mod_mul_right k n d
  have hbelow : 2 * (n % d * k) < d * k ↔ 2 * (n % d) < d := by
    rw [← Nat.mul_assoc]
    exact Nat.mul_lt_mul_right hk
  have hhalf : 2 * (n % d * k) = d * k ↔ 2 * (n % d) = d := by
    rw [← Nat.mul_assoc]
    exact Nat.mul_right_cancel_iff hk
  simp only [roundDiv, hquotient, hrest, hbelow, hhalf]

theorem roundDiv_mul_self (n : Nat) {d : Nat} (hd : 0 < d) : roundDiv (n * d) d = n := by
  rw [roundDiv, Nat.mul_div_cancel n hd, Nat.mul_mod_left]
  simp [hd]

namespace Number

section Rounding

theorem unitsPerOne_eq : unitsPerOne = 2 ^ 1074 := by
  decide +kernel

theorem unitsPerOne_pos : 0 < unitsPerOne := by
  decide +kernel

theorem nearestBits_mul_right (num den : Nat) {k : Nat} (hk : 0 < k) :
    nearestBits (num * k) (den * k) = nearestBits num den := by
  have hunits : num * k * unitsPerOne = num * unitsPerOne * k := Nat.mul_right_comm ..
  have hstep (e : Nat) : den * k * Nat.pow 2 e = den * Nat.pow 2 e * k := Nat.mul_right_comm ..
  simp only [nearestBits, hunits, hstep, Nat.mul_div_mul_right _ _ hk, roundDiv_mul_right _ _ hk]

/-- The nearest double depends on the ratio alone. -/
theorem nearestBits_congr {num den num' den' : Nat} (hden : 0 < den) (hden' : 0 < den')
    (hratio : num * den' = num' * den) : nearestBits num den = nearestBits num' den' := by
  calc nearestBits num den
      = nearestBits (num * den') (den * den') := (nearestBits_mul_right _ _ hden').symm
    _ = nearestBits (num' * den) (den' * den) := by rw [hratio, Nat.mul_comm den]
    _ = nearestBits num' den' := nearestBits_mul_right _ _ hden

/-- The magnitude that bits below the sign stand for, counted in units. -/
def unitsOfBits (bits : Nat) : Nat :=
  if bits / hiddenBit = 0 then bits
  else (bits % hiddenBit + hiddenBit) * 2 ^ (bits / hiddenBit - 1)

theorem log2_scaled {significand : Nat} (shift : Nat) (hlow : 2 ^ 52 ≤ significand)
    (hhigh : significand < 2 ^ 53) : (significand * 2 ^ shift).log2 = 52 + shift := by
  have hpow : 0 < 2 ^ shift := Nat.two_pow_pos shift
  have hpos : 0 < significand * 2 ^ shift := Nat.mul_pos (by omega) hpow
  rw [Nat.log2_eq_iff hpos.ne', Nat.add_right_comm, Nat.pow_add, Nat.pow_add]
  exact ⟨Nat.mul_le_mul_right _ hlow, Nat.mul_lt_mul_of_pos_right hhigh hpow⟩

/-- Rounding leaves a double alone. -/
theorem nearestBits_unitsOfBits {bits : Nat} (hbits : bits < infinityBits) :
    nearestBits (unitsOfBits bits) unitsPerOne = bits := by
  have hunits : unitsOfBits bits * unitsPerOne / unitsPerOne = unitsOfBits bits :=
    Nat.mul_div_cancel _ unitsPerOne_pos
  rw [nearestBits, hunits, unitsOfBits]
  split
  next hsubnormal =>
    have hlt : bits < 2 ^ 52 := Nat.lt_of_div_eq_zero (by decide) hsubnormal
    have hlog : bits.log2 - 52 = 0 := by
      rcases Nat.eq_zero_or_pos bits with rfl | hpos
      · rfl
      · have := (Nat.log2_lt hpos.ne').mpr hlt
        omega
    have hround : roundDiv (bits * unitsPerOne) (unitsPerOne * Nat.pow 2 0) = bits := by
      rw [show Nat.pow 2 0 = 1 from rfl, Nat.mul_one, roundDiv_mul_self _ unitsPerOne_pos]
    simp only [hlog, hround]
    omega
  next hnormal =>
    have hfraction : bits % hiddenBit < 2 ^ 52 := Nat.mod_lt _ (by decide)
    have hbits' : hiddenBit * (bits / hiddenBit) + bits % hiddenBit = bits := Nat.div_add_mod ..
    generalize bits / hiddenBit = biased, bits % hiddenBit = fraction at *
    have hlog : ((fraction + hiddenBit) * 2 ^ (biased - 1)).log2 = 52 + (biased - 1) :=
      log2_scaled _ (Nat.le_add_left ..) (Nat.add_lt_add_right hfraction hiddenBit)
    have hround : roundDiv ((fraction + hiddenBit) * 2 ^ (biased - 1) * unitsPerOne)
        (unitsPerOne * Nat.pow 2 (biased - 1)) = fraction + hiddenBit := by
      rw [Nat.mul_assoc, Nat.mul_comm _ unitsPerOne]
      exact roundDiv_mul_self _ (Nat.mul_pos unitsPerOne_pos (Nat.two_pow_pos _))
    have hsum : (biased - 1) * hiddenBit + (fraction + hiddenBit) = bits := by
      obtain ⟨k, rfl⟩ := Nat.exists_eq_succ_of_ne_zero hnormal
      rw [← hbits', Nat.succ_sub_one, Nat.mul_succ, Nat.mul_comm k]
      omega
    simp only [hlog, Nat.add_sub_cancel_left, hround, hsum]
    omega

theorem nearestBits_eq_infinityBits {num den order : Nat} (horder : 2099 ≤ order)
    (hlarge : 2 ^ order ≤ num * unitsPerOne / den) : nearestBits num den = infinityBits := by
  have hlog : order ≤ (num * unitsPerOne / den).log2 := by
    rw [Nat.le_log2 ((Nat.two_pow_pos order).trans_le hlarge).ne']
    exact hlarge
  have hexponent : infinityBits ≤ ((num * unitsPerOne / den).log2 - 52) * hiddenBit :=
    Nat.mul_le_mul_right _ (by omega)
  exact Nat.min_eq_right (hexponent.trans (Nat.le_add_right ..))

theorem nearestBits_eq_zero {num den : Nat} (hsmall : 2 * (num * unitsPerOne) < den) :
    nearestBits num den = 0 := by
  have hdiv : num * unitsPerOne / den = 0 := Nat.div_eq_of_lt (by omega)
  have hround : roundDiv (num * unitsPerOne) den = 0 := by
    rw [roundDiv, hdiv, Nat.mod_eq_of_lt (by omega)]
    simp [hsmall]
  rw [nearestBits, hdiv]
  simp only [Nat.log2_zero, Nat.zero_sub, Nat.zero_mul, Nat.zero_add]
  rw [show Nat.pow 2 0 = 1 from rfl, Nat.mul_one, hround, Nat.zero_min]

/-- A power of ten above three hundred and ten puts a number beyond the largest double. -/
theorem nearestBits_large {digits exponent : Nat} (hdigits : digits ≠ 0)
    (hexponent : 311 ≤ exponent) : nearestBits (digits * 10 ^ exponent) 1 = infinityBits := by
  have hpower : 2 ^ 1033 ≤ 10 ^ 311 := by decide +kernel
  have hvalue : 2 ^ 1033 ≤ digits * 10 ^ exponent :=
    calc 2 ^ 1033 ≤ 10 ^ exponent := hpower.trans (pow_le_pow_right₀ (by decide) hexponent)
      _ ≤ digits * 10 ^ exponent := Nat.le_mul_of_pos_left _ (Nat.pos_of_ne_zero hdigits)
  apply nearestBits_eq_infinityBits (show 2099 ≤ 1033 + 1074 by decide)
  rw [Nat.div_one, unitsPerOne_eq, pow_add]
  exact mul_le_mul_left hvalue _

/-- Enough places behind the point put a number below half of the least double. -/
theorem nearestBits_small {digits places : Nat} (hplaces : digits.log2 + 331 < places) :
    nearestBits digits (10 ^ places) = 0 := by
  have hdigits : digits < 10 ^ (digits.log2 + 1) :=
    Nat.lt_log2_self.trans_le (Nat.pow_le_pow_left (by decide) _)
  have hunits : 2 * unitsPerOne ≤ 10 ^ 331 := by decide +kernel
  apply nearestBits_eq_zero
  calc 2 * (digits * unitsPerOne)
      = digits * (2 * unitsPerOne) := Nat.mul_left_comm ..
    _ < 10 ^ (digits.log2 + 1) * 10 ^ 331 :=
        Nat.mul_lt_mul_of_lt_of_le hdigits hunits (by positivity)
    _ = 10 ^ (digits.log2 + 1 + 331) := (pow_add ..).symm
    _ ≤ 10 ^ places := pow_le_pow_right₀ (by decide) (by omega)

end Rounding

end Number

namespace Decimal

/-- The shortcuts by order of magnitude agree with the rounded division. -/
theorem nearestBits_eq (d : Decimal) :
    d.nearestBits =
      Number.nearestBits (d.digits * 10 ^ d.exponent.toNat) (10 ^ (-d.exponent).toNat) := by
  rw [nearestBits]
  rcases lt_or_ge d.exponent 0 with hexponent | hexponent
  · have hwhole : d.exponent.toNat = 0 := by omega
    rw [hwhole, pow_zero, mul_one]
    split
    next hzero => rw [hzero, Number.nearestBits_eq_zero (by simp)]
    next =>
      rw [if_neg (by omega)]
      split
      next hsmall => exact (Number.nearestBits_small (by omega)).symm
      next => rw [if_neg (by omega), Nat.pow_eq]
  · have hplaces : (-d.exponent).toNat = 0 := by omega
    rw [hplaces, pow_zero]
    split
    next hzero => rw [hzero, Number.nearestBits_eq_zero (by simp)]
    next hnonzero =>
      split
      next hlarge => exact (Number.nearestBits_large hnonzero (by omega)).symm
      next => rw [if_neg (by omega), Nat.pow_eq]

/-- Two decimals denote the same number. -/
def Same (d d' : Decimal) : Prop :=
  d.digits * 10 ^ d.exponent.toNat * 10 ^ (-d'.exponent).toNat =
    d'.digits * 10 ^ d'.exponent.toNat * 10 ^ (-d.exponent).toNat

theorem Same.nearestBits_eq {d d' : Decimal} (h : d.Same d') : d.nearestBits = d'.nearestBits := by
  rw [d.nearestBits_eq, d'.nearestBits_eq]
  exact Number.nearestBits_congr (Nat.pow_pos (by decide)) (Nat.pow_pos (by decide)) h

/-- A decimal whose digits make up for all but a power of two of its places. -/
theorem nearestBits_of_places {d : Decimal} {num factor k : Nat} (hdigits : d.digits = num * factor)
    (hexponent : d.exponent = -k) (hfactor : factor * 2 ^ k = 10 ^ k) :
    d.nearestBits = Number.nearestBits num (2 ^ k) := by
  rw [nearestBits_eq, hdigits, hexponent]
  apply Number.nearestBits_congr (by positivity) (by positivity)
  simp [mul_assoc, hfactor]

end Decimal

namespace Number

theorem ofSignAndBits_self (x : Float) :
    ofSignAndBits (isNegative x) (x.toBits.toNat % signBit) = x := by
  have hbits : (if isNegative x then signBit + x.toBits.toNat % signBit
      else x.toBits.toNat % signBit) = x.toBits.toNat := by
    have hlt : x.toBits.toNat < 2 * signBit := x.toBits.toNat_lt
    simp only [isNegative, decide_eq_true_eq]
    split
    next hset => rw [Nat.mod_eq_sub_mod hset, Nat.mod_eq_of_lt (by omega), Nat.add_sub_cancel' hset]
    next hclear => exact Nat.mod_eq_of_lt (Nat.lt_of_not_le hclear)
  rw [ofSignAndBits, hbits, UInt64.ofNat_toNat, Float.ofBits_toBits]

section Bits

open Float.Model (Format UnpackedFloat)
open Float.Model.UnpackedFloat

theorem exponent_of_isFinite {x : Float} (hfinite : isFinite x = true) :
    x.toBits.toNat / hiddenBit % 2048 ≠ 2047 := by
  intro hones
  have hexponent : @unpackExponent Format.binary64 x.toBits.toBitVec = -1#11 := by
    apply BitVec.eq_of_toNat_eq
    have hshift : x.toBits.toNat >>> 52 = x.toBits.toNat / hiddenBit := Nat.shiftRight_eq_div_pow ..
    simpa [unpackExponent, hshift] using hones
  have hspecial : x.isNaN = true ∨ x.isInf = true := by
    change (unpack Format.binary64 x.toBits.toBitVec).isNaN = true ∨
      (unpack Format.binary64 x.toBits.toBitVec).isInf = true
    rw [unpack]
    simp only
    rw [if_pos hexponent]
    split
    · exact .inr rfl
    · exact .inl rfl
  rw [isFinite, Bool.and_eq_true, Bool.not_eq_true', Bool.not_eq_true'] at hfinite
  rcases hspecial with hnan | hinf
  · exact absurd hnan (by rw [hfinite.1]; decide)
  · exact absurd hinf (by rw [hfinite.2]; decide)

end Bits

theorem magnitude_lt_infinityBits {x : Float} (hfinite : isFinite x = true) :
    x.toBits.toNat % signBit < infinityBits := by
  have hexponent := exponent_of_isFinite hfinite
  simp only [hiddenBit, signBit, infinityBits, Nat.pow_eq] at *
  omega

theorem units_eq (x : Float) : units x = unitsOfBits (x.toBits.toNat % signBit) := by
  have hbiased : x.toBits.toNat % signBit / hiddenBit = x.toBits.toNat / hiddenBit % 2048 := by
    simp only [hiddenBit, signBit, Nat.pow_eq]
    omega
  have hfraction : x.toBits.toNat % signBit % hiddenBit = x.toBits.toNat % hiddenBit :=
    Nat.mod_mod_of_dvd _ ⟨2048, rfl⟩
  rw [units, unitsOfBits, hbiased, hfraction]
  split
  next hsubnormal =>
    have hsplit := Nat.div_add_mod (x.toBits.toNat % signBit) hiddenBit
    rw [hbiased, hsubnormal, hfraction] at hsplit
    omega
  next => rfl

section Shortest

variable {x : Float} (hfinite : isFinite x = true)
include hfinite

theorem exactDecimal_nearestBits :
    (exactDecimal x).nearestBits = x.toBits.toNat % signBit := by
  have hunits : (exactDecimal x).nearestBits = nearestBits (units x) (2 ^ 1074) :=
    Decimal.nearestBits_of_places rfl rfl (by decide +kernel)
  rw [hunits, ← unitsPerOne_eq, units_eq,
    nearestBits_unitsOfBits (magnitude_lt_infinityBits hfinite)]

theorem searchGrids_nearestBits (count : Nat) (exponent : Int) :
    (searchGrids x count exponent).nearestBits = x.toBits.toNat % signBit := by
  induction count generalizing exponent with
  | zero => rw [searchGrids, exactDecimal_nearestBits hfinite]
  | succ count ih =>
      rw [searchGrids]
      cases hfound : (neighbours x exponent).find? fun d =>
          d.nearestBits == x.toBits.toNat % signBit with
      | none => exact ih (exponent - 1)
      | some d =>
          have hhit := List.find?_some hfound
          exact eq_of_beq hhit

/-- The shortest decimal reads back as the double it was made from. -/
theorem shortestDecimal_nearestBits :
    (shortestDecimal x).nearestBits = x.toBits.toNat % signBit := by
  rw [shortestDecimal]
  split
  next hzero =>
    have hunits := nearestBits_unitsOfBits (magnitude_lt_infinityBits hfinite)
    rw [← units_eq, hzero, nearestBits_eq_zero (by simpa using unitsPerOne_pos)] at hunits
    exact hunits
  next => exact searchGrids_nearestBits hfinite 17 (decimalOrder x)

end Shortest

end Number

end Glass
