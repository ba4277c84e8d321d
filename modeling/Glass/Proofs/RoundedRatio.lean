import Glass.Proofs.SignedNumber

/-!
Rounding to the nearest double. The bits below the sign count the magnitudes in increasing order,
and the count goes on beyond the largest double as if exponents had no bound. In that order a fraction
is rounded to the nearest magnitude, an even one if two are equally near: those of its own binade are
the multiples of one step, and all others lie farther away. What is rounded past the largest double
becomes infinite.
-/

namespace Glass

section Integers

theorem roundDiv_cases (n d : Nat) :
    (roundDiv n d = n / d ∧ 2 * (n % d) ≤ d ∧ (2 * (n % d) = d → roundDiv n d % 2 = 0)) ∨
      (roundDiv n d = n / d + 1 ∧ d ≤ 2 * (n % d) ∧ (2 * (n % d) = d → roundDiv n d % 2 = 0)) := by
  rw [roundDiv]
  split
  next hdown =>
    left
    omega
  next hup =>
    right
    omega

theorem cast_div_eq (n : Nat) {d : Nat} (hd : 0 < d) :
    (n : ℚ) / d = (n / d : Nat) + (n % d : Nat) / d := by
  have hsplit : (n : ℚ) = d * (n / d : Nat) + (n % d : Nat) := by
    exact_mod_cast (Nat.div_add_mod n d).symm
  have hne : (d : ℚ) ≠ 0 := Nat.cast_ne_zero.mpr hd.ne'
  rw [div_eq_iff hne, add_mul, div_mul_cancel₀ _ hne, mul_comm _ (d : ℚ)]
  exact hsplit

/-- A rounded quotient is at most a half away, and even if it is just a half. -/
theorem roundDiv_near (n : Nat) {d : Nat} (hd : 0 < d) :
    |(roundDiv n d : ℚ) - n / d| ≤ 1 / 2 ∧
      (|(roundDiv n d : ℚ) - n / d| = 1 / 2 → roundDiv n d % 2 = 0) := by
  have hpos : (0 : ℚ) < d := Nat.cast_pos.mpr hd
  have hnonneg : (0 : ℚ) ≤ (n % d : Nat) / d := by positivity
  have hlt : ((n % d : Nat) : ℚ) / d < 1 := by
    rw [div_lt_one hpos]
    exact_mod_cast Nat.mod_lt n hd
  have hhalf : ((n % d : Nat) : ℚ) / d = 1 / 2 → 2 * (n % d) = d := by
    intro h
    rw [div_eq_div_iff hpos.ne' two_ne_zero] at h
    have hcast : ((2 * (n % d) : Nat) : ℚ) = d := by
      push_cast at h ⊢
      linarith
    exact_mod_cast hcast
  rcases roundDiv_cases n d with ⟨hround, hle, heven⟩ | ⟨hround, hle, heven⟩
  · have hfraction : ((n % d : Nat) : ℚ) / d ≤ 1 / 2 := by
      rw [div_le_div_iff₀ hpos two_pos]
      exact_mod_cast (by omega : n % d * 2 ≤ 1 * d)
    have hdistance : |(roundDiv n d : ℚ) - n / d| = (n % d : Nat) / d := by
      rw [hround, cast_div_eq n hd, sub_add_cancel_left, abs_neg, abs_of_nonneg hnonneg]
    rw [hdistance]
    exact ⟨hfraction, fun h => heven (hhalf h)⟩
  · have hfraction : 1 / 2 ≤ ((n % d : Nat) : ℚ) / d := by
      rw [div_le_div_iff₀ two_pos hpos]
      exact_mod_cast (by omega : 1 * d ≤ n % d * 2)
    have hdistance : |(roundDiv n d : ℚ) - n / d| = 1 - (n % d : Nat) / d := by
      rw [hround, cast_div_eq n hd, Nat.cast_succ, add_sub_add_left_eq_sub,
        abs_of_pos (sub_pos.mpr hlt)]
    rw [hdistance]
    exact ⟨by linarith, fun h => heven (hhalf (by linarith))⟩

/-- No other integer is nearer than a half. -/
theorem half_le_abs_sub {a : ℚ} {r k : Nat} (hr : |(r : ℚ) - a| ≤ 1 / 2) (hk : k ≠ r) :
    1 / 2 ≤ |(k : ℚ) - a| := by
  have hapart : (1 : ℚ) ≤ |(k : ℚ) - r| := by
    have hint : (1 : ℤ) ≤ |(k : ℤ) - r| := Int.one_le_abs (sub_ne_zero.mpr (by exact_mod_cast hk))
    exact_mod_cast hint
  have htriangle := abs_sub_le (k : ℚ) a r
  rw [abs_sub_comm a] at htriangle
  linarith

end Integers

namespace Number

section Magnitudes

/-- Bits stand for significand times power, also if the significand is one more than the largest. -/
theorem unitsOfBits_scaled {exponent significand : Nat} (hlow : exponent = 0 ∨ 2 ^ 52 ≤ significand)
    (hhigh : significand ≤ 2 ^ 53) :
    unitsOfBits (exponent * hiddenBit + significand) = significand * 2 ^ exponent := by
  have hhidden : hiddenBit = 2 ^ 52 := rfl
  rw [unitsOfBits, hhidden]
  rcases lt_or_ge significand (2 ^ 52) with hsubnormal | hnormal
  · obtain rfl := hlow.resolve_right (by omega)
    rw [if_pos (by omega)]
    omega
  rw [if_neg (by omega)]
  rcases Nat.lt_or_eq_of_le hhigh with hlt | rfl
  · have hdiv : (exponent * 2 ^ 52 + significand) / 2 ^ 52 - 1 = exponent := by omega
    have hmod : (exponent * 2 ^ 52 + significand) % 2 ^ 52 + 2 ^ 52 = significand := by omega
    rw [hdiv, hmod]
  · have hdiv : (exponent * 2 ^ 52 + 2 ^ 53) / 2 ^ 52 - 1 = exponent + 1 := by omega
    have hmod : (exponent * 2 ^ 52 + 2 ^ 53) % 2 ^ 52 + 2 ^ 52 = 2 ^ 52 := by omega
    rw [hdiv, hmod, pow_succ]
    ring

theorem exists_scaled (bits : Nat) :
    ∃ exponent significand, (exponent = 0 ∨ 2 ^ 52 ≤ significand) ∧ significand < 2 ^ 53 ∧
      bits = exponent * hiddenBit + significand := by
  have hhidden : hiddenBit = 2 ^ 52 := rfl
  rw [hhidden]
  refine ⟨bits / 2 ^ 52 - 1, bits - (bits / 2 ^ 52 - 1) * 2 ^ 52, ?_, ?_, ?_⟩ <;> omega

theorem unitsOfBits_strictMono : StrictMono unitsOfBits := by
  apply strictMono_nat_of_lt_succ
  intro bits
  obtain ⟨exponent, significand, hlow, hhigh, rfl⟩ := exists_scaled bits
  rw [Nat.add_assoc, unitsOfBits_scaled hlow hhigh.le, unitsOfBits_scaled (by omega) (by omega)]
  exact Nat.mul_lt_mul_of_pos_right (Nat.lt_succ_self _) (Nat.two_pow_pos _)

/-- A magnitude is on the grid of a binade's steps, or below the binade. -/
theorem unitsOfBits_grid (bits exponent : Nat) :
    (∃ k, unitsOfBits bits = k * 2 ^ exponent) ∨
      (exponent ≠ 0 ∧ unitsOfBits bits < 2 ^ 52 * 2 ^ exponent) := by
  obtain ⟨own, significand, hlow, hhigh, rfl⟩ := exists_scaled bits
  rw [unitsOfBits_scaled hlow hhigh.le]
  rcases lt_or_ge own exponent with hlt | hge
  · right
    refine ⟨by omega, ?_⟩
    calc significand * 2 ^ own
        < 2 ^ 53 * 2 ^ own := Nat.mul_lt_mul_of_pos_right hhigh (Nat.two_pow_pos _)
      _ = 2 ^ 52 * 2 ^ (own + 1) := by rw [pow_succ]; ring
      _ ≤ 2 ^ 52 * 2 ^ exponent := Nat.mul_le_mul_left _ (Nat.pow_le_pow_right two_pos hlt)
  · left
    refine ⟨significand * 2 ^ (own - exponent), ?_⟩
    rw [mul_assoc, ← pow_add, Nat.sub_add_cancel hge]

end Magnitudes

/-- Of all magnitudes, those beyond the largest double included, the one with these bits is nearest
to so many units; if another is as near, the bits are even. -/
structure NearestMagnitude (units : ℚ) (bits : Nat) : Prop where
  le : ∀ other, |(unitsOfBits bits : ℚ) - units| ≤ |(unitsOfBits other : ℚ) - units|
  even : ∀ other, other ≠ bits →
    |(unitsOfBits other : ℚ) - units| = |(unitsOfBits bits : ℚ) - units| → bits % 2 = 0

section Binades

/-- The step of the binade that a number of units lies in, as a power of two. -/
def binade (num den : Nat) : Nat := (num * unitsPerOne / den).log2 - 52

/-- The quotient by the step has just the digits of a significand. -/
theorem significand_bounds (num den : Nat) :
    (binade num den = 0 ∨ 2 ^ 52 ≤ num * unitsPerOne / (den * 2 ^ binade num den)) ∧
      num * unitsPerOne / (den * 2 ^ binade num den) < 2 ^ 53 := by
  rw [← Nat.div_div_eq_div_mul, binade]
  generalize num * unitsPerOne / den = whole
  constructor
  · rcases Nat.eq_zero_or_pos (whole.log2 - 52) with hzero | hpos
    · exact Or.inl hzero
    · right
      have hne : whole ≠ 0 := by
        rintro rfl
        simp at hpos
      rw [Nat.le_div_iff_mul_le (Nat.two_pow_pos _), ← pow_add, Nat.add_sub_cancel' (by omega)]
      exact Nat.log2_self_le hne
  · rw [Nat.div_lt_iff_lt_mul (Nat.two_pow_pos _), ← pow_add]
    exact Nat.lt_log2_self.trans_le (Nat.pow_le_pow_right two_pos (by omega))

/-- The significand is what so many units come to in steps of their binade, rounded. -/
structure RoundedInBinade (units : ℚ) (exponent significand : Nat) : Prop where
  low : exponent = 0 ∨ 2 ^ 52 ≤ significand
  high : significand ≤ 2 ^ 53
  bottom : exponent = 0 ∨ 2 ^ 52 * 2 ^ exponent ≤ units
  near : |(significand : ℚ) - units / 2 ^ exponent| ≤ 1 / 2
  even : |(significand : ℚ) - units / 2 ^ exponent| = 1 / 2 → significand % 2 = 0

namespace RoundedInBinade

theorem abs_sub_eq (units k : ℚ) (exponent : Nat) :
    |k * 2 ^ exponent - units| = |k - units / 2 ^ exponent| * 2 ^ exponent := by
  have hstep : (0 : ℚ) < 2 ^ exponent := by positivity
  rw [← abs_of_pos hstep, ← abs_mul, abs_of_pos hstep, sub_mul, div_mul_cancel₀ _ hstep.ne']

variable {units : ℚ} {exponent significand : Nat} (h : RoundedInBinade units exponent significand)
include h

theorem dist_self :
    |(unitsOfBits (exponent * hiddenBit + significand) : ℚ) - units| =
      |(significand : ℚ) - units / 2 ^ exponent| * 2 ^ exponent := by
  rw [unitsOfBits_scaled h.low h.high, Nat.cast_mul, Nat.cast_pow, Nat.cast_ofNat, abs_sub_eq]

theorem dist_self_le :
    |(unitsOfBits (exponent * hiddenBit + significand) : ℚ) - units| ≤ 1 / 2 * 2 ^ exponent := by
  rw [h.dist_self]
  exact mul_le_mul_of_nonneg_right h.near (by positivity)

theorem le_dist_grid {k : Nat} (hk : k ≠ significand) :
    1 / 2 * 2 ^ exponent ≤ |(k : ℚ) * 2 ^ exponent - units| := by
  rw [abs_sub_eq]
  exact mul_le_mul_of_nonneg_right (half_le_abs_sub h.near hk) (by positivity)

/-- What lies below the binade lies behind its bottom, which is on the grid. -/
theorem dist_self_lt_of_below {other : Nat} (hnonzero : exponent ≠ 0)
    (hbelow : unitsOfBits other < 2 ^ 52 * 2 ^ exponent) :
    |(unitsOfBits (exponent * hiddenBit + significand) : ℚ) - units| <
      |(unitsOfBits other : ℚ) - units| := by
  have hbottom := h.bottom.resolve_left hnonzero
  have hother : (unitsOfBits other : ℚ) < 2 ^ 52 * 2 ^ exponent := by exact_mod_cast hbelow
  have hfar : |(2 ^ 52 : ℚ) * 2 ^ exponent - units| < |(unitsOfBits other : ℚ) - units| := by
    rw [abs_of_nonpos (by linarith), abs_of_nonpos (by linarith)]
    linarith
  refine lt_of_le_of_lt ?_ hfar
  rcases eq_or_ne significand (2 ^ 52) with rfl | hne
  · rw [h.dist_self, abs_sub_eq, Nat.cast_pow, Nat.cast_ofNat]
  · have hgrid := h.le_dist_grid hne.symm
    rw [Nat.cast_pow, Nat.cast_ofNat] at hgrid
    exact h.dist_self_le.trans hgrid

/-- Rounding in the binade gives the nearest of all magnitudes. -/
theorem nearestMagnitude : NearestMagnitude units (exponent * hiddenBit + significand) := by
  have hother (other : Nat) (hne : other ≠ exponent * hiddenBit + significand) :
      1 / 2 * 2 ^ exponent ≤ |(unitsOfBits other : ℚ) - units| ∨
        |(unitsOfBits (exponent * hiddenBit + significand) : ℚ) - units| <
          |(unitsOfBits other : ℚ) - units| := by
    rcases unitsOfBits_grid other exponent with ⟨k, hk⟩ | ⟨hnonzero, hbelow⟩
    · left
      have hk' : k ≠ significand := by
        rintro rfl
        rw [← unitsOfBits_scaled h.low h.high] at hk
        exact hne (unitsOfBits_strictMono.injective hk)
      rw [hk, Nat.cast_mul, Nat.cast_pow, Nat.cast_ofNat]
      exact h.le_dist_grid hk'
    · exact Or.inr (h.dist_self_lt_of_below hnonzero hbelow)
  constructor
  · intro other
    rcases eq_or_ne other (exponent * hiddenBit + significand) with rfl | hne
    · exact le_rfl
    rcases hother other hne with hfar | hfar
    · exact h.dist_self_le.trans hfar
    · exact hfar.le
  · intro other hne hsame
    rcases hother other hne with hfar | hfar
    · -- Both are half a step away.
      have hhalf := le_antisymm h.dist_self_le (hsame ▸ hfar)
      rw [h.dist_self] at hhalf
      have hsignificand := h.even (mul_right_cancel₀ (by positivity) hhalf)
      have hhidden : hiddenBit = 2 * 2 ^ 51 := rfl
      rw [hhidden]
      omega
    · exact absurd hsame hfar.ne'

end RoundedInBinade

/-- The bits that a fraction is rounded to if exponents have no bound. -/
theorem exists_nearestMagnitude (num : Nat) {den : Nat} (hden : 0 < den) :
    ∃ bits, nearestBits num den = min bits infinityBits ∧
      NearestMagnitude ((num : ℚ) / den * unitsPerOne) bits := by
  obtain ⟨hlow, hhigh⟩ := significand_bounds num den
  refine ⟨binade num den * hiddenBit +
    roundDiv (num * unitsPerOne) (den * 2 ^ binade num den), rfl, ?_⟩
  have hpos : 0 < den * 2 ^ binade num den := Nat.mul_pos hden (Nat.two_pow_pos _)
  have hcases := roundDiv_cases (num * unitsPerOne) (den * 2 ^ binade num den)
  obtain ⟨hnear, heven⟩ := roundDiv_near (num * unitsPerOne) hpos
  have hsteps : ((num * unitsPerOne : Nat) : ℚ) / ((den * 2 ^ binade num den : Nat) : ℚ) =
      (num : ℚ) / den * unitsPerOne / 2 ^ binade num den := by
    push_cast
    rw [div_mul_eq_mul_div, div_div]
  rw [hsteps] at hnear heven
  apply RoundedInBinade.nearestMagnitude
  refine ⟨by omega, by omega, ?_, hnear, heven⟩
  rcases hlow with hzero | hlow
  · exact Or.inl hzero
  · right
    rw [Nat.le_div_iff_mul_le hpos] at hlow
    have hcast : ((2 ^ 52 * (den * 2 ^ binade num den) : Nat) : ℚ) ≤ (num * unitsPerOne : Nat) :=
      Nat.cast_le.mpr hlow
    push_cast at hcast
    rw [div_mul_eq_mul_div, le_div_iff₀ (Nat.cast_pos.mpr hden)]
    linarith

end Binades

/-- Halfway between the largest double and the power of two above it. -/
def overflow : ℚ := 2 ^ 1024 - 2 ^ 970

section Overflow

theorem unitsOfBits_infinityBits : unitsOfBits infinityBits = 2 ^ 53 * 2 ^ 2045 := by
  have hbits : infinityBits = 2045 * hiddenBit + 2 ^ 53 := by decide
  rw [hbits, unitsOfBits_scaled (Or.inr (by decide)) le_rfl]

theorem unitsOfBits_largest : unitsOfBits (infinityBits - 1) + 2 ^ 2045 = 2 ^ 53 * 2 ^ 2045 := by
  have hbits : infinityBits - 1 = 2045 * hiddenBit + (2 ^ 53 - 1) := by decide
  rw [hbits, unitsOfBits_scaled (Or.inr (by decide)) (by decide), ← Nat.succ_mul,
    Nat.succ_eq_add_one, Nat.sub_add_cancel (by decide)]

theorem overflow_eq :
    overflow * unitsPerOne =
      ((unitsOfBits (infinityBits - 1) : ℚ) + unitsOfBits infinityBits) / 2 := by
  have hlargest : (unitsOfBits (infinityBits - 1) : ℚ) + 2 ^ 2045 = 2 ^ 53 * 2 ^ 2045 := by
    have hcast := congrArg (fun units : Nat => (units : ℚ)) unitsOfBits_largest
    simpa only [Nat.cast_add, Nat.cast_mul, Nat.cast_pow, Nat.cast_ofNat] using hcast
  have hinfinity : (unitsOfBits infinityBits : ℚ) = 2 ^ 53 * 2 ^ 2045 := by
    rw [unitsOfBits_infinityBits, Nat.cast_mul, Nat.cast_pow, Nat.cast_pow, Nat.cast_ofNat]
  have hone : (unitsPerOne : ℚ) = 2 ^ 1074 := by rw [unitsPerOne_eq, Nat.cast_pow, Nat.cast_ofNat]
  have hhigh : (2 : ℚ) ^ 1024 * 2 ^ 1074 = 2 ^ 53 * 2 ^ 2045 := by rw [← pow_add, ← pow_add]
  have hlow : (2 : ℚ) ^ 970 * 2 ^ 1074 = 2 ^ 2045 / 2 := by
    rw [eq_div_iff two_ne_zero, ← pow_add, ← pow_succ]
  rw [overflow, hone, sub_mul, hhigh, hlow, hinfinity]
  generalize (2 : ℚ) ^ 2045 = gap at *
  linarith

/-- Rounding goes past the largest double from halfway on, since the largest double is odd. -/
theorem NearestMagnitude.lt_infinityBits_iff {units : ℚ} {bits : Nat}
    (h : NearestMagnitude units bits) : bits < infinityBits ↔ units < overflow * unitsPerOne := by
  have hgap : (unitsOfBits (infinityBits - 1) : ℚ) < unitsOfBits infinityBits :=
    Nat.cast_lt.mpr (unitsOfBits_strictMono (by decide))
  rw [overflow_eq]
  constructor
  · intro hlt
    have hle : (unitsOfBits bits : ℚ) ≤ unitsOfBits (infinityBits - 1) :=
      Nat.cast_le.mpr (unitsOfBits_strictMono.monotone (Nat.le_sub_one_of_lt hlt))
    by_contra hnot
    have hself : |(unitsOfBits bits : ℚ) - units| = units - unitsOfBits bits := by
      rw [abs_sub_comm, abs_of_nonneg (by linarith)]
    have hnearest := h.le infinityBits
    rcases le_total (unitsOfBits infinityBits : ℚ) units with hbeyond | hbefore
    · rw [hself, abs_of_nonpos (by linarith)] at hnearest
      linarith
    · have hother : |(unitsOfBits infinityBits : ℚ) - units| = unitsOfBits infinityBits - units :=
        abs_of_nonneg (by linarith)
      rw [hself, hother] at hnearest
      have hlargest : bits = infinityBits - 1 := by
        apply unitsOfBits_strictMono.injective
        have hcast : (unitsOfBits bits : ℚ) = unitsOfBits (infinityBits - 1) := by linarith
        exact_mod_cast hcast
      have heven := h.even infinityBits hlt.ne' (by linarith)
      rw [hlargest] at heven
      exact absurd heven (by decide)
  · intro hlt
    by_contra hnot
    have hle : (unitsOfBits infinityBits : ℚ) ≤ unitsOfBits bits :=
      Nat.cast_le.mpr (unitsOfBits_strictMono.monotone (Nat.le_of_not_lt hnot))
    have hnearest := h.le (infinityBits - 1)
    rw [abs_of_nonneg (by linarith)] at hnearest
    rcases abs_cases ((unitsOfBits (infinityBits - 1) : ℚ) - units) with ⟨habs, _⟩ | ⟨habs, _⟩ <;>
      linarith

end Overflow

section Patterns

open Float.Model (Format UnpackedFloat)
open Float.Model.UnpackedFloat

/-- A double has the bits it was made from, if these are not beyond infinity. -/
theorem toBits_ofBits {word : UInt64} (hword : word.toNat % signBit ≤ infinityBits) :
    (Float.ofBits word).toBits.toNat = word.toNat := by
  change (pack Format.binary64 (unpack Format.binary64 word.toBitVec)).toNat = _
  rw [pack_unpack_of_valid]
  · rfl
  -- With all ones in the exponent nothing is left for the mantissa.
  refine ⟨fun hones hmantissa => absurd (BitVec.eq_of_toNat_eq ?_) hmantissa⟩
  have hfields := toNat_fields word.toBitVec
  have hlt := (@unpackMantissa Format.binary64 word.toBitVec).isLt
  change word.toNat = _ at hfields
  change _ < 2 ^ 52 at hlt
  rw [hones] at hfields
  change word.toNat = _ * 2 ^ 63 + 2047 * 2 ^ 52 + _ at hfields
  change _ = 0
  simp only [signBit, infinityBits, hiddenBit, Nat.pow_eq] at hword
  omega

theorem toBits_ofSignAndBits (negative : Bool) {bits : Nat} (hbits : bits ≤ infinityBits) :
    (ofSignAndBits negative bits).toBits.toNat = if negative then signBit + bits else bits := by
  have hlt : bits < signBit := hbits.trans_lt (by decide)
  have hword : (UInt64.ofNat (if negative then signBit + bits else bits)).toNat =
      if negative then signBit + bits else bits := by
    have hsize : UInt64.size = 2 * signBit := rfl
    apply UInt64.toNat_ofNat_of_lt'
    split <;> omega
  rw [ofSignAndBits, toBits_ofBits, hword]
  rw [hword]
  split
  · rwa [Nat.add_mod_left, Nat.mod_eq_of_lt hlt]
  · rwa [Nat.mod_eq_of_lt hlt]

end Patterns

theorem isNegative_ofSignAndBits (negative : Bool) {bits : Nat} (hbits : bits ≤ infinityBits) :
    isNegative (ofSignAndBits negative bits) = negative := by
  have hlt : bits < signBit := hbits.trans_lt (by decide)
  rw [Bool.eq_iff_iff, isNegative_iff, toBits_ofSignAndBits negative hbits]
  cases negative <;> simp [hlt]

theorem magnitude_ofSignAndBits (negative : Bool) {bits : Nat} (hbits : bits ≤ infinityBits) :
    (ofSignAndBits negative bits).toBits.toNat % signBit = bits := by
  have hlt : bits < signBit := hbits.trans_lt (by decide)
  rw [toBits_ofSignAndBits negative hbits]
  cases negative with
  | true => rw [if_pos rfl, Nat.add_mod_left, Nat.mod_eq_of_lt hlt]
  | false => rw [if_neg (by decide), Nat.mod_eq_of_lt hlt]

theorem isFinite_iff (x : Float) : isFinite x = true ↔ x.toBits.toNat % signBit < infinityBits := by
  refine ⟨magnitude_lt_infinityBits, fun hlt => isFinite_of_exponent ?_⟩
  simp only [hiddenBit, signBit, infinityBits, Nat.pow_eq] at *
  omega

/-- The number that a finite double stands for. -/
def rational (x : Float) : ℚ := (if isNegative x then -1 else 1) * (units x / unitsPerOne)

/-- A number is rounded to the nearest double, if two are equally near to one with an even
significand. From `overflow` on it is rounded to an infinity. -/
inductive Rounds (q : ℚ) : Float → Prop where
  | nearest {x : Float} : |q| < overflow → isFinite x = true →
      (∀ y, isFinite y = true → |rational x - q| ≤ |rational y - q|) →
      (∀ y, isFinite y = true → rational y ≠ rational x → |rational y - q| = |rational x - q| →
        x.toBits.toNat % 2 = 0) →
      Rounds q x
  | infinite {x : Float} :
      overflow ≤ |q| → x.isInf = true → isNegative x = decide (q < 0) → Rounds q x

section Rounding

theorem unitsPerOne_cast_pos : (0 : ℚ) < unitsPerOne := Nat.cast_pos.mpr unitsPerOne_pos

theorem rational_of_sign {x : Float} (h : isNegative x = false) :
    rational x = unitsOfBits (x.toBits.toNat % signBit) / unitsPerOne := by
  rw [rational, h, units_eq, if_neg Bool.false_ne_true, one_mul]

theorem rational_of_negative {x : Float} (h : isNegative x = true) :
    rational x = -(unitsOfBits (x.toBits.toNat % signBit) / unitsPerOne) := by
  rw [rational, h, units_eq, if_pos rfl, neg_one_mul]

/-- A number that is not negative is as near to a double's magnitude as to the double. -/
theorem abs_magnitude_sub_le {q : ℚ} (hq : 0 ≤ q) (x : Float) :
    |(unitsOfBits (x.toBits.toNat % signBit) : ℚ) / unitsPerOne - q| ≤ |rational x - q| := by
  have hnonneg : (0 : ℚ) ≤ unitsOfBits (x.toBits.toNat % signBit) / unitsPerOne := by positivity
  cases hsign : isNegative x with
  | false => rw [rational_of_sign hsign]
  | true =>
      rw [rational_of_negative hsign, ← neg_add', abs_neg, abs_of_nonneg (add_nonneg hnonneg hq),
        abs_le]
      constructor <;> linarith

theorem abs_div_unitsPerOne_sub (a q : ℚ) :
    |a / unitsPerOne - q| = |a - q * unitsPerOne| / unitsPerOne := by
  have hpos := unitsPerOne_cast_pos
  rw [← abs_of_pos hpos, ← abs_div, abs_of_pos hpos, sub_div, mul_div_cancel_right₀ _ hpos.ne']

/-- A double and its negation are equally near only if both are zero. -/
theorem eq_of_tie {q : ℚ} (hq : 0 ≤ q) {x y : Float} (hsign : isNegative x = false)
    (hmagnitude : y.toBits.toNat % signBit = x.toBits.toNat % signBit)
    (hnear : |rational x - q| ≤ q) (hsame : |rational y - q| = |rational x - q|) :
    rational y = rational x := by
  cases hsign' : isNegative y with
  | false => rw [rational_of_sign hsign', rational_of_sign hsign, hmagnitude]
  | true =>
      have hopposite : rational y = -rational x := by
        rw [rational_of_negative hsign', rational_of_sign hsign, hmagnitude]
      have hnonneg : 0 ≤ rational x := by
        rw [rational_of_sign hsign]
        exact div_nonneg (Nat.cast_nonneg _) (Nat.cast_nonneg _)
      rw [hopposite, ← neg_add', abs_neg, abs_of_nonneg (add_nonneg hnonneg hq)] at hsame
      linarith

/-- A number below `overflow` is rounded to a double whose magnitude is nearest to it. -/
theorem NearestMagnitude.rounds {q : ℚ} (hq : 0 ≤ q) {x : Float} (hsign : isNegative x = false)
    (hfinite : isFinite x = true) (hsmall : q < overflow)
    (h : NearestMagnitude (q * unitsPerOne) (x.toBits.toNat % signBit)) : Rounds q x := by
  have hpos := unitsPerOne_cast_pos
  have hle (bits : Nat) : |rational x - q| ≤ |(unitsOfBits bits : ℚ) / unitsPerOne - q| := by
    rw [rational_of_sign hsign, abs_div_unitsPerOne_sub, abs_div_unitsPerOne_sub]
    exact div_le_div_of_nonneg_right (h.le bits) hpos.le
  have hzero : |rational x - q| ≤ q := by
    have hunits : ((unitsOfBits 0 : Nat) : ℚ) = 0 := Nat.cast_zero
    have hnear := hle 0
    rw [hunits, zero_div, zero_sub, abs_neg, abs_of_nonneg hq] at hnear
    exact hnear
  refine .nearest ?_ hfinite ?_ ?_
  · rw [abs_of_nonneg hq]
    exact hsmall
  · intro y _
    exact (hle _).trans (abs_magnitude_sub_le hq y)
  · intro y _ hne hsame
    have hother : y.toBits.toNat % signBit ≠ x.toBits.toNat % signBit := fun hmagnitude =>
      hne (eq_of_tie hq hsign hmagnitude hzero hsame)
    have hdistance := le_antisymm (hsame ▸ abs_magnitude_sub_le hq y) (hle _)
    rw [rational_of_sign hsign, abs_div_unitsPerOne_sub, abs_div_unitsPerOne_sub,
      div_left_inj' hpos.ne'] at hdistance
    rw [← h.even _ hother hdistance, Nat.mod_mod_of_dvd _ (by decide)]

theorem not_isNegative_ofRatio (num den : Nat) : isNegative (ofRatio false num den) = false :=
  isNegative_ofSignAndBits false (Nat.min_le_right ..)

/-- A ratio is rounded to the double that is made of it. -/
theorem rounds_ofRatio (num : Nat) {den : Nat} (hden : 0 < den) :
    Rounds ((num : ℚ) / den) (ofRatio false num den) := by
  obtain ⟨bits, hmin, hnearest⟩ := exists_nearestMagnitude num hden
  have hsign := not_isNegative_ofRatio num den
  have hq : (0 : ℚ) ≤ (num : ℚ) / den := div_nonneg (Nat.cast_nonneg _) (Nat.cast_nonneg _)
  have hbound := hnearest.lt_infinityBits_iff
  rw [mul_lt_mul_iff_left₀ unitsPerOne_cast_pos] at hbound
  rcases lt_or_ge bits infinityBits with hlt | hge
  · have hmagnitude : (ofRatio false num den).toBits.toNat % signBit = bits := by
      rw [ofRatio, hmin, min_eq_left hlt.le, magnitude_ofSignAndBits false hlt.le]
    apply NearestMagnitude.rounds hq hsign
    · rwa [isFinite_iff, hmagnitude]
    · exact hbound.mp hlt
    · rwa [hmagnitude]
  · apply Rounds.infinite
    · rw [abs_of_nonneg hq]
      exact le_of_not_gt (mt hbound.mpr hge.not_gt)
    · rw [ofRatio, hmin, min_eq_right hge]
      decide +kernel
    · rw [hsign, eq_comm, decide_eq_false_iff_not]
      exact hq.not_gt

theorem rounds_ofNat (n : Nat) : Rounds n (ofRatio false n 1) := by
  have hratio := rounds_ofRatio n Nat.one_pos
  rwa [Nat.cast_one, div_one] at hratio

/-- What lies between two numbers equally far away is nearer. -/
theorem abs_sub_lt_of_between {a b c q : ℚ} (hbetween : a < b ∧ b < c ∨ c < b ∧ b < a)
    (hsame : |c - q| = |a - q|) : |b - q| < |a - q| := by
  rw [abs_lt]
  rcases hbetween with ⟨hab, hbc⟩ | ⟨hcb, hba⟩
  · have hlow := neg_abs_le (a - q)
    have hhigh := le_abs_self (c - q)
    constructor <;> linarith
  · have hlow := neg_abs_le (c - q)
    have hhigh := le_abs_self (a - q)
    constructor <;> linarith

/-- Doubles of one sign are in the order of their magnitudes, or in the opposite one. -/
theorem rational_order {x y : Float} (hsign : isNegative x = isNegative y)
    (hlt : x.toBits.toNat % signBit < y.toBits.toNat % signBit) :
    if isNegative x then rational y < rational x else rational x < rational y := by
  have hunits : (unitsOfBits (x.toBits.toNat % signBit) : ℚ) / unitsPerOne <
      unitsOfBits (y.toBits.toNat % signBit) / unitsPerOne :=
    div_lt_div_of_pos_right (Nat.cast_lt.mpr (unitsOfBits_strictMono hlt)) unitsPerOne_cast_pos
  cases hx : isNegative x with
  | false =>
      rw [if_neg Bool.false_ne_true, rational_of_sign hx, rational_of_sign (hsign ▸ hx)]
      exact hunits
  | true =>
      rw [if_pos rfl, rational_of_negative hx, rational_of_negative (hsign ▸ hx)]
      exact neg_lt_neg hunits

/-- Doubles of one sign that are not neighbours have another one between them. -/
theorem exists_between {x y : Float} (hsign : isNegative x = isNegative y)
    (hfinite : isFinite y = true)
    (hgap : x.toBits.toNat % signBit + 1 < y.toBits.toNat % signBit) :
    ∃ z, isFinite z = true ∧ (rational x < rational z ∧ rational z < rational y ∨
      rational y < rational z ∧ rational z < rational x) := by
  have hbits : x.toBits.toNat % signBit + 1 < infinityBits :=
    hgap.trans (magnitude_lt_infinityBits hfinite)
  refine ⟨ofSignAndBits (isNegative x) (x.toBits.toNat % signBit + 1), ?_, ?_⟩
  · rwa [isFinite_iff, magnitude_ofSignAndBits _ hbits.le]
  have hmagnitude := magnitude_ofSignAndBits (isNegative x) hbits.le
  have hsignz := isNegative_ofSignAndBits (isNegative x) hbits.le
  have hxz := rational_order hsignz.symm (by omega)
  have hzy := rational_order (hsignz.trans hsign) (by omega)
  rw [hsignz] at hzy
  split at hxz
  next hnegative =>
    rw [if_pos hnegative] at hzy
    exact Or.inr ⟨hzy, hxz⟩
  next hpositive =>
    rw [if_neg hpositive] at hzy
    exact Or.inl ⟨hxz, hzy⟩

/-- With its sign given there is one double only that a number is rounded to. -/
theorem Rounds.unique {q : ℚ} {x y : Float} (hx : Rounds q x) (hy : Rounds q y)
    (hsign : isNegative x = isNegative y) : x = y := by
  cases hx with
  | infinite hlarge hinf _ =>
      cases hy with
      | infinite _ hinf' _ =>
          apply eq_of_magnitude hsign
          rw [magnitude_of_isInf hinf, magnitude_of_isInf hinf']
      | nearest hsmall _ _ _ => exact absurd hsmall hlarge.not_gt
  | nearest hsmall hfinite hnear heven =>
      cases hy with
      | infinite hlarge _ _ => exact absurd hsmall hlarge.not_gt
      | nearest _ hfinite' hnear' heven' =>
          apply eq_of_magnitude hsign
          by_contra hne
          wlog hlt : x.toBits.toNat % signBit < y.toBits.toNat % signBit generalizing x y
          · apply this hsign.symm hfinite' hnear' heven' hfinite hnear heven (Ne.symm hne)
            omega
          -- Two neighbours are not both even, so there is a double between, and it is nearer.
          have hsame := le_antisymm (hnear' x hfinite) (hnear y hfinite')
          have hvalues : rational x ≠ rational y := by
            have horder := rational_order hsign hlt
            split at horder
            · exact horder.ne'
            · exact horder.ne
          have hparity := heven y hfinite' hvalues.symm hsame
          have hparity' := heven' x hfinite hvalues hsame.symm
          have hgap : x.toBits.toNat % signBit + 1 < y.toBits.toNat % signBit := by
            simp only [signBit, Nat.pow_eq] at *
            omega
          obtain ⟨z, hfinite'', hbetween⟩ := exists_between hsign hfinite' hgap
          exact absurd (hnear z hfinite'') (abs_sub_lt_of_between hbetween hsame).not_ge

end Rounding

end Number

end Glass
