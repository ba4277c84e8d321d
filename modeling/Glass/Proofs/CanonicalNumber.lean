import Glass.Number.Text
import Glass.Proofs.LexemeLocality
import Glass.Proofs.RoundedRatio

/-!
Canonical number text. A finite double is printed and logged with the same digits, in different
notations, and both texts denote one number, which is rounded to the double. The printed one is the
canonical one: it has no exponent, no zero that could be left out, and a point only in front of
digits. A numeral whose digits start and end with none but significant ones is written in this way.
-/

namespace Glass

namespace Decimal

/-- The number that digits and exponent stand for. -/
def value (d : Decimal) : ℚ := d.digits * 10 ^ d.exponent

theorem value_eq_div (d : Decimal) :
    d.value =
      ((d.digits * 10 ^ d.exponent.toNat : Nat) : ℚ) / ((10 ^ (-d.exponent).toNat : Nat) : ℚ) := by
  have hpower : (10 : ℚ) ^ d.exponent = 10 ^ d.exponent.toNat / 10 ^ (-d.exponent).toNat := by
    rw [← zpow_natCast, ← zpow_natCast, ← zpow_sub₀ (by norm_num), Int.toNat_sub_toNat_neg]
  rw [value, hpower]
  push_cast
  rw [mul_div_assoc]

theorem Same.value_eq {d d' : Decimal} (h : d.Same d') : d.value = d'.value := by
  rw [value_eq_div, value_eq_div, div_eq_div_iff (by positivity) (by positivity)]
  exact_mod_cast h

/-- A decimal is rounded to the double that is made of it. -/
theorem rounds_toFloat (d : Decimal) : Number.Rounds d.value d.toFloat := by
  have hfloat : d.toFloat =
      Number.ofRatio false (d.digits * 10 ^ d.exponent.toNat) (10 ^ (-d.exponent).toNat) := by
    rw [toFloat, nearestBits_eq, Number.ofRatio]
  rw [value_eq_div, hfloat]
  exact Number.rounds_ofRatio _ (by positivity)

end Decimal

namespace Number

section Negation

variable {x : Float} (hfinite : isFinite x = true)
include hfinite

theorem rational_neg : rational (-x) = -rational x := by
  have hmagnitude := magnitude_neg hfinite
  cases hsign : isNegative x with
  | true =>
      have hsign' := not_isNegative_neg hfinite hsign
      rw [rational_of_negative hsign, rational_of_sign hsign', hmagnitude, neg_neg]
  | false =>
      have hsign' : isNegative (-x) = true := by rw [isNegative_neg hfinite, hsign, Bool.not_false]
      rw [rational_of_sign hsign, rational_of_negative hsign', hmagnitude]

theorem abs_rational_neg_sub (q : ℚ) : |rational (-x) - q| = |rational x - -q| := by
  rw [rational_neg hfinite, ← abs_neg, neg_sub', neg_neg]

theorem toBits_neg_mod_two : (-x).toBits.toNat % 2 = x.toBits.toNat % 2 := by
  have hmagnitude := magnitude_neg hfinite
  simp only [signBit, Nat.pow_eq] at hmagnitude
  omega

/-- Rounding treats both signs alike. -/
theorem Rounds.neg {q : ℚ} (h : Rounds q x) : Rounds (-q) (-x) := by
  cases h with
  | infinite _ hinf _ =>
      rw [isFinite, hinf, Bool.not_true, Bool.and_false] at hfinite
      cases hfinite
  | nearest hsmall _ hnear heven =>
      refine .nearest (by rwa [abs_neg]) (isFinite_neg hfinite) ?_ ?_
      · intro y hy
        rw [abs_rational_neg_sub hfinite, neg_neg, ← abs_rational_neg_sub hy]
        exact hnear (-y) (isFinite_neg hy)
      · intro y hy hne hsame
        rw [abs_rational_neg_sub hfinite, neg_neg, ← abs_rational_neg_sub hy] at hsame
        rw [toBits_neg_mod_two hfinite]
        refine heven (-y) (isFinite_neg hy) (fun heq => hne ?_) hsame
        rw [rational_neg hfinite, ← heq, rational_neg hy, neg_neg]

end Negation

end Number

/-- Any one of the characters. -/
def anyOf (chars : List Char) : RegularExpression Char := (chars.map .char).sum

def decimalDigits : List Char := "0123456789".toList

def nonzeroDigits : List Char := "123456789".toList

open RegularExpression in
/-- The texts `-?(0|[1-9][0-9]*)(\.[0-9]*[1-9])?`. -/
def canonicalNumeral : RegularExpression Char :=
  (1 + char '-') * ((char '0' + anyOf nonzeroDigits * star (anyOf decimalDigits)) *
    (1 + char '.' * (star (anyOf decimalDigits) * anyOf nonzeroDigits)))

/-- The number that a numeral denotes; it may have a sign, a point and an exponent. -/
def denoted? : List Char → Option ℚ
  | '-' :: text => (readNumeral? text).map fun d => -d.value
  | text => (readNumeral? text).map Decimal.value

section Patterns

theorem singleton_mem_anyOf {chars : List Char} {c : Char} (h : c ∈ chars) :
    [c] ∈ (anyOf chars).matches' := by
  induction chars with
  | nil => cases h
  | cons other chars ih =>
      rw [anyOf, List.map_cons, List.sum_cons, RegularExpression.matches'_add, Language.mem_add]
      rcases List.mem_cons.mp h with rfl | h
      · exact Or.inl rfl
      · exact Or.inr (ih h)

theorem mem_star_anyOf {chars text : List Char} (h : ∀ c ∈ text, c ∈ chars) :
    text ∈ (anyOf chars).star.matches' := by
  rw [RegularExpression.matches'_star, Language.mem_kstar]
  refine ⟨text.map fun c => [c], ?_, fun word hword => ?_⟩
  · rw [← List.flatMap_def, List.flatMap_singleton']
  · obtain ⟨c, member, rfl⟩ := List.mem_map.mp hword
    exact singleton_mem_anyOf (h c member)

theorem mem_decimalDigits {c : Char} (h : c.isDigit = true) : c ∈ decimalDigits := by
  revert h
  apply forall_char_of_ascii (P := fun c => c.isDigit = true → c ∈ decimalDigits)
  · decide +kernel
  · intro c hbeyond hdigit
    have hlt := @Base.toNat_lt_of_isDigit .hexadecimal c (by simp [Base.isDigit, hdigit])
    exact absurd hlt (Nat.not_lt.mpr hbeyond)

theorem mem_nonzeroDigits {c : Char} (h : c.isDigit = true) (hzero : c ≠ '0') :
    c ∈ nonzeroDigits :=
  (List.mem_cons.mp (mem_decimalDigits h)).resolve_left hzero

end Patterns

namespace Numeral

/-- The digits start and end with significant ones, and without any the numeral is a plain zero. -/
structure Normal (n : Numeral) : Prop where
  isDigit : ∀ c ∈ n.digits, c.isDigit = true
  first : n.digits.head? ≠ some '0'
  last : n.digits.getLast? ≠ some '0'
  point : n.digits = [] → n.point = 1

section Digits

theorem head_toDigits {n : Nat} (h : n ≠ 0) : (Nat.toDigits 10 n).head? ≠ some '0' := by
  induction n using Nat.strongRecOn with
  | ind n ih =>
      rcases Nat.lt_or_ge n 10 with hlt | hge
      · rw [Nat.toDigits_of_lt_base hlt]
        have hdigits : ∀ n < 10, n ≠ 0 → [Nat.digitChar n].head? ≠ some '0' := by decide
        exact hdigits n hlt h
      · rw [Nat.toDigits_of_base_le (by decide) hge, List.head?_append]
        obtain ⟨c, hc⟩ := Option.isSome_iff_exists.mp
          (List.isSome_head?.mpr (Nat.toDigits_ne_nil (n := n / 10) (b := 10)))
        have hfirst := ih (n / 10) (by omega) (by omega)
        rw [hc] at hfirst ⊢
        exact hfirst

theorem getLast_trimEnd (c : Char) (text : List Char) :
    (trimEnd (· == c) text).getLast? ≠ some c := by
  intro hlast
  rw [trimEnd, List.getLast?_reverse] at hlast
  have hstop := List.head?_dropWhile_not (· == c) text.reverse
  rw [hlast] at hstop
  simp at hstop

theorem normal_ofDecimal {d : Decimal} (h : d.digits = 0 → d.exponent = 0) :
    (ofDecimal d).Normal := by
  obtain ⟨digits, exponent⟩ := d
  by_cases hzero : digits = 0
  · obtain rfl : exponent = 0 := h hzero
    subst hzero
    exact ⟨nofun, nofun, nofun, fun _ => rfl⟩
  · obtain ⟨k, hzeros⟩ := eq_trimEnd_append '0' (Nat.toDigits 10 digits)
    refine ⟨isDigit_ofDecimal _, fun hfirst => ?_, getLast_trimEnd '0' _, fun hempty => ?_⟩
    · apply head_toDigits hzero
      simp only [ofDecimal] at hfirst
      rw [hzeros, List.head?_append, hfirst]
      rfl
    · simp only [ofDecimal] at hempty
      have hvalue := ofDigits_toDigits digits
      rw [hzeros, hempty, ofDigits_append_zeros] at hvalue
      exact absurd (hvalue.symm.trans (Nat.zero_mul _)) hzero

end Digits

theorem ofDigits_concat (base : Nat) (text : List Char) (c : Char) :
    ofDigits base (text ++ [c]) = base * ofDigits base text + digitValue c := by
  simp [ofDigits]

namespace Normal

variable {n : Numeral} (h : n.Normal)
include h

theorem exists_digits (hpoint : n.point ≠ 1) : ∃ c rest, n.digits = c :: rest :=
  List.exists_cons_of_ne_nil (mt h.point hpoint)

theorem ne_zero_of_head {c : Char} {rest : List Char} (hdigits : n.digits = c :: rest) :
    c ≠ '0' := by
  rintro rfl
  exact h.first (by rw [hdigits, List.head?_cons])

/-- The whole part is a zero or starts with another digit. -/
theorem whole_cases :
    n.whole = ['0'] ∨ ∃ c rest, n.whole = c :: rest ∧ c ∈ nonzeroDigits ∧
      ∀ d ∈ rest, d ∈ decimalDigits := by
  have hrun := isRun_whole h.isDigit
  by_cases hsmall : n.point ≤ 0
  · exact Or.inl (if_pos hsmall)
  cases hdigits : n.digits with
  | nil =>
      left
      rw [whole, if_neg hsmall, hdigits, h.point hdigits]
      rfl
  | cons c rest =>
      right
      obtain ⟨k, hk⟩ : ∃ k, n.point.toNat = k + 1 := ⟨n.point.toNat - 1, by omega⟩
      have hwhole : n.whole = c :: (rest.take k ++ List.replicate (k - rest.length) '0') := by
        rw [whole, if_neg hsmall, hdigits, hk, List.take_succ_cons, List.length_cons,
          Nat.add_sub_add_right, List.cons_append]
      have hc : c.isDigit = true := h.isDigit c (by simp [hdigits])
      refine ⟨c, _, hwhole, mem_nonzeroDigits hc (h.ne_zero_of_head hdigits), fun d member => ?_⟩
      apply mem_decimalDigits
      apply hrun.2
      rw [hwhole]
      exact List.mem_cons_of_mem _ member

theorem getLast_fraction : n.fraction.getLast? ≠ some '0' := by
  rw [fraction]
  split
  next hsmall =>
    obtain ⟨c, rest, hdigits⟩ := h.exists_digits (by omega)
    rw [List.getLast?_append_of_ne_nil _ (by rw [hdigits]; exact List.cons_ne_nil _ _)]
    exact h.last
  next =>
    rw [List.getLast?_drop]
    split
    · exact (Option.some_ne_none _).symm
    · exact h.last

/-- Behind the point there is nothing, or the last digit is significant. -/
theorem fraction_cases :
    n.fraction = [] ∨ ∃ front c, n.fraction = front ++ [c] ∧ c ∈ nonzeroDigits ∧
      ∀ d ∈ front, d ∈ decimalDigits := by
  have hdigits := isDigit_fraction h.isDigit
  have hlast := h.getLast_fraction
  rcases n.fraction.eq_nil_or_concat with hempty | ⟨front, c, hfraction⟩
  · exact Or.inl hempty
  right
  rw [List.concat_eq_append] at hfraction
  rw [hfraction] at hdigits hlast
  have hzero : c ≠ '0' := by
    rintro rfl
    simp at hlast
  exact ⟨front, c, hfraction, mem_nonzeroDigits (hdigits c (by simp)) hzero,
    fun d member => mem_decimalDigits (hdigits d (by simp [member]))⟩

/-- Around its point the numeral is written as the canonical text. -/
theorem mem_canonicalNumeral {sign : List Char} (hsign : sign = [] ∨ sign = ['-']) :
    sign ++ (n.whole ++ NumberLiteral.pointAnd n.fraction) ∈ canonicalNumeral.matches' := by
  apply Language.append_mem_mul
  · rcases hsign with rfl | rfl
    · exact Or.inl rfl
    · exact Or.inr rfl
  apply Language.append_mem_mul
  · rcases h.whole_cases with hzero | ⟨c, rest, hwhole, hc, hrest⟩
    · rw [hzero]
      exact Or.inl rfl
    · rw [hwhole]
      exact Or.inr (Language.append_mem_mul (singleton_mem_anyOf hc) (mem_star_anyOf hrest))
  · rcases h.fraction_cases with hempty | ⟨front, c, hfraction, hc, hfront⟩
    · rw [hempty]
      exact Or.inl rfl
    · have hpoint : NumberLiteral.pointAnd n.fraction = ['.'] ++ (front ++ [c]) := by
        simp [NumberLiteral.pointAnd, hfraction]
      rw [hpoint]
      right
      apply Language.append_mem_mul
      · rfl
      · exact Language.append_mem_mul (mem_star_anyOf hfront) (singleton_mem_anyOf hc)

/-- A significant digit behind the point keeps the number from being an integer. -/
theorem fraction_eq_nil_iff : n.fraction = [] ↔ ∃ m : ℤ, n.decimal.value = m := by
  rw [← n.positional_same.value_eq]
  constructor
  · intro hempty
    refine ⟨ofDigits 10 n.whole, ?_⟩
    simp [Decimal.value, hempty]
  · rintro ⟨m, hm⟩
    rcases h.fraction_cases with hempty | ⟨front, c, hfraction, hc, _⟩
    · exact hempty
    have hdigit : 1 ≤ digitValue c ∧ digitValue c ≤ 9 := by
      have hall : nonzeroDigits.all (fun c => 1 ≤ digitValue c ∧ digitValue c ≤ 9) = true := by
        decide
      simpa using List.all_eq_true.mp hall c hc
    have hcount : (ofDigits 10 (n.whole ++ n.fraction) : ℤ) = m * 10 ^ n.fraction.length := by
      rw [Decimal.value, zpow_neg, ← div_eq_mul_inv, div_eq_iff (by positivity), zpow_natCast] at hm
      exact_mod_cast hm
    -- The count ends with the digit, while ten divides the other side.
    rw [hfraction, ← List.append_assoc, ofDigits_concat, List.length_append, List.length_singleton,
      pow_succ, ← mul_assoc] at hcount
    omega

end Normal

end Numeral

namespace Number

theorem shortestDecimal_eq_zero {x : Float} (hfinite : isFinite x = true)
    (h : (shortestDecimal x).digits = 0) : (shortestDecimal x).exponent = 0 := by
  have hunits : units x = 0 := by
    have hbits : x.toBits.toNat % signBit = 0 := by
      rw [← shortestDecimal_nearestBits hfinite, Decimal.nearestBits, if_pos h]
    rw [units_eq, hbits]
    rfl
  rw [shortestDecimal, if_pos hunits]

end Number

section Reading

open NumberLiteral

/-- A numeral is read part by part. -/
theorem readNumeral?_parts {whole fraction exponent : List Char}
    (hwhole : IsRun Char.isDigit whole) (hfraction : ∀ c ∈ fraction, c.isDigit = true)
    (hexponent : IsExponent exponent) :
    readNumeral? (whole ++ (pointAnd fraction ++ exponent)) =
      some ⟨ofDigits 10 (whole ++ fraction), exponentValue exponent - fraction.length⟩ := by
  have htake : (whole ++ (pointAnd fraction ++ exponent)).takeWhile Char.isDigit = whole := by
    apply takeWhile_append_eq hwhole.2
    intro c hc
    rw [pointAnd] at hc
    split at hc
    · exact hexponent.head_not_digit c hc
    · obtain rfl := Option.some.inj hc
      rfl
  simp only [readNumeral?, htake, List.drop_left]
  cases hcases : fraction with
  | nil =>
      have hpoint : exponent.head? ≠ some '.' := by
        intro hhead
        rcases hexponent.head _ hhead with h | h <;> cases h
      simp [pointAnd, hpoint, exponentPart_self hexponent, hwhole.1]
  | cons c rest =>
      have hplaces : (fraction ++ exponent).takeWhile Char.isDigit = fraction :=
        takeWhile_append_eq hfraction hexponent.head_not_digit
      rw [← hcases]
      have hpoint : pointAnd fraction = '.' :: fraction := by simp [pointAnd, hcases]
      simp [hpoint, hplaces, exponentPart_self hexponent, hwhole.1, Nat.add_comm 1]

theorem denoted?_of_value {text : List Char} {q : ℚ}
    (h : (readNumeral? text).map Decimal.value = some q) : denoted? text = some q := by
  unfold denoted?
  split
  next => simp [readNumeral?] at h
  next => exact h

theorem denoted?_minus {text : List Char} {q : ℚ}
    (h : (readNumeral? text).map Decimal.value = some q) :
    denoted? ('-' :: text) = some (-q) := by
  obtain ⟨d, hread, rfl⟩ := Option.map_eq_some_iff.mp h
  rw [denoted?, hread]
  rfl

theorem exponentText_eq (order : Int) :
    ∃ digits, exponentText order = (if order < 0 then '-' else '+') :: digits ∧
      IsRun Char.isDigit digits ∧ ofDigits 10 digits = order.natAbs := by
  have hrun : IsRun Char.isDigit (Nat.toDigits 10 order.natAbs) :=
    ⟨Nat.toDigits_ne_nil, fun c => Nat.isDigit_of_mem_toDigits (by decide) (by decide)⟩
  have hvalue := ofDigits_toDigits order.natAbs
  refine ⟨_, rfl, ?_⟩
  split
  next =>
    refine ⟨⟨List.cons_ne_nil _ _, List.forall_mem_cons.mpr ⟨rfl, hrun.2⟩⟩, ?_⟩
    exact (ofDigits_zeros_append 10 _ 1).trans hvalue
  next => exact ⟨hrun, hvalue⟩

theorem isExponent_exponentText (order : Int) : IsExponent ('e' :: exponentText order) := by
  obtain ⟨digits, htext, hrun, _⟩ := exponentText_eq order
  have hsign : [if order < 0 then '-' else '+'] ∈ [[], ['+'], ['-']] := by split <;> decide
  rw [htext]
  exact IsExponent.power (by decide) hsign hrun

theorem exponentValue_exponentText (order : Int) :
    exponentValue ('e' :: exponentText order) = order := by
  obtain ⟨digits, htext, _, hvalue⟩ := exponentText_eq order
  rw [htext]
  split
  · rw [exponentValue, hvalue]
    omega
  · rw [exponentValue, hvalue]
    omega

end Reading

namespace NumberStyle

open NumberLiteral

theorem printed_magnitude (n : Numeral) :
    printed.magnitude n = n.whole ++ (pointAnd n.fraction ++ []) := by
  rw [List.append_nil]
  rfl

/-- What is printed denotes what the digits and the point do. -/
theorem value_printed {n : Numeral} (h : n.Normal) :
    (readNumeral? (printed.magnitude n)).map Decimal.value = some n.decimal.value := by
  rw [printed_magnitude, readNumeral?_parts (Numeral.isRun_whole h.isDigit)
    (Numeral.isDigit_fraction h.isDigit) .none]
  have hsame := n.positional_same.value_eq
  rw [← zero_sub] at hsame
  exact congrArg some hsame

/-- An integer is logged with a zero behind the point. -/
theorem value_logged_positional {n : Numeral} (h : n.Normal) :
    (readNumeral? (logged.positional n)).map Decimal.value = some n.decimal.value := by
  have hwhole := Numeral.isRun_whole h.isDigit
  rw [← value_printed h]
  by_cases hempty : n.fraction = []
  · have htext : logged.positional n = n.whole ++ (pointAnd ['0'] ++ []) := by
      simp [positional, hempty, logged, pointAnd]
    have hsame := (@Decimal.same_shift (ofDigits 10 n.whole) 1 (-1) 0 rfl).value_eq
    rw [← ofDigits_append_zeros] at hsame
    rw [htext, readNumeral?_parts hwhole (by simp) .none, printed_magnitude, hempty,
      readNumeral?_parts hwhole (by simp) .none, List.append_nil]
    exact congrArg some hsame
  · have htext : logged.positional n = printed.magnitude n := by
      simp [positional, magnitude, hempty, printed]
    rw [htext]

theorem value_scientific {n : Numeral} (h : n.Normal) (hdigits : n.digits ≠ []) :
    (readNumeral? (scientific n)).map Decimal.value = some n.decimal.value := by
  obtain ⟨c, rest, hcons⟩ := List.exists_cons_of_ne_nil hdigits
  have hrun : IsRun Char.isDigit [c] :=
    ⟨List.cons_ne_nil _ _, List.forall_mem_singleton.mpr (h.isDigit c (by simp [hcons]))⟩
  have hrest : ∀ d ∈ rest, d.isDigit = true := fun d member =>
    h.isDigit d (by simp [hcons, member])
  have htext : scientific n = [c] ++ (pointAnd rest ++ 'e' :: exponentText (n.point - 1)) := by
    simp [scientific, hcons, pointAnd]
  have hdecimal : n.decimal = ⟨ofDigits 10 ([c] ++ rest), n.point - 1 - rest.length⟩ := by
    rw [Numeral.decimal, hcons, List.length_cons, List.singleton_append]
    congr 1
    omega
  rw [htext, readNumeral?_parts hrun hrest (isExponent_exponentText _),
    exponentValue_exponentText, hdecimal]
  rfl

theorem value_logged {n : Numeral} (h : n.Normal) :
    (readNumeral? (logged.magnitude n)).map Decimal.value = some n.decimal.value := by
  rw [magnitude]
  split
  next => exact value_logged_positional h
  next hfar =>
    apply value_scientific h
    intro hempty
    rw [h.point hempty] at hfar
    exact hfar rfl

/-- The sign that is put in front of the digits. -/
def signText (x : Float) : List Char := if Number.isNegative x then ['-'] else []

theorem text_of_isFinite (style : NumberStyle) {x : Float} (hfinite : Number.isFinite x = true) :
    (style.text x).toList =
      signText x ++ style.magnitude (.ofDecimal (Number.shortestDecimal x)) := by
  rw [Number.isFinite, Bool.and_eq_true, Bool.not_eq_true', Bool.not_eq_true'] at hfinite
  simp only [text, hfinite.1, hfinite.2, signText]
  cases Number.isNegative x <;> simp

/-- A number with the sign of the double. -/
def withSign (x : Float) (q : ℚ) : ℚ := if Number.isNegative x then -q else q

theorem denoted?_text (style : NumberStyle) {x : Float} {q : ℚ}
    (hfinite : Number.isFinite x = true)
    (h : (readNumeral? (style.magnitude (.ofDecimal (Number.shortestDecimal x)))).map
      Decimal.value = some q) : denoted? (style.text x).toList = some (withSign x q) := by
  rw [text_of_isFinite style hfinite, signText, withSign]
  split
  · exact denoted?_minus h
  · exact denoted?_of_value h

/-- The shortest decimal, with the sign of the double, is rounded to the double. -/
theorem rounds_withSign {x : Float} (hfinite : Number.isFinite x = true) :
    Number.Rounds (withSign x (Number.shortestDecimal x).value) x := by
  have hrounds := (Number.shortestDecimal x).rounds_toFloat
  rw [Decimal.toFloat, Number.shortestDecimal_nearestBits hfinite] at hrounds
  rw [withSign]
  split
  next hsign =>
    have hpositive := Number.not_isNegative_neg hfinite hsign
    rw [← Number.magnitude_neg hfinite, ← hpositive, Number.ofSignAndBits_self] at hrounds
    have hneg := hrounds.neg (Number.isFinite_neg hfinite)
    rwa [Number.neg_neg_self hfinite] at hneg
  next hsign =>
    rwa [← Bool.eq_false_iff.mpr hsign, Number.ofSignAndBits_self] at hrounds

theorem withSign_isInteger_iff (x : Float) (q : ℚ) :
    (∃ m : ℤ, withSign x q = m) ↔ ∃ m : ℤ, q = m := by
  rw [withSign]
  split
  · constructor
    · rintro ⟨m, hm⟩
      exact ⟨-m, by rw [Int.cast_neg, ← hm, neg_neg]⟩
    · rintro ⟨m, rfl⟩
      exact ⟨-m, by rw [Int.cast_neg]⟩
  · rfl

/-- Only digits stand before the point, and there is a point only before digits. -/
theorem point_mem_iff {n : Numeral} (h : n.Normal) (x : Float) :
    '.' ∈ signText x ++ (n.whole ++ pointAnd n.fraction) ↔ n.fraction ≠ [] := by
  have hsign : '.' ∉ signText x := by
    rw [signText]
    split <;> decide
  have hwhole : '.' ∉ n.whole := fun member =>
    absurd ((Numeral.isRun_whole h.isDigit).2 _ member) (by decide)
  rw [List.mem_append, List.mem_append, or_iff_right hsign, or_iff_right hwhole, pointAnd]
  by_cases hempty : n.fraction = [] <;> simp [hempty]

theorem minus_head_iff {n : Numeral} (h : n.Normal) (x : Float) (rest : List Char) :
    (signText x ++ (n.whole ++ rest)).head? = some '-' ↔ Number.isNegative x = true := by
  obtain ⟨hnonempty, hdigits⟩ := Numeral.isRun_whole h.isDigit
  obtain ⟨c, more, hwhole⟩ := List.exists_cons_of_ne_nil hnonempty
  have hminus : c ≠ '-' := by
    rintro rfl
    exact absurd (hdigits '-' (by simp [hwhole])) (by decide)
  rw [signText, hwhole]
  split
  next hsign => simp [hsign]
  next hsign => simp [hsign, hminus]

end NumberStyle

open NumberStyle in
/-- A finite double is logged as a numeral, perhaps with an exponent, that denotes a number which is
rounded to the double. The printed text is the canonical one for this number: it matches
`-?(0|[1-9][0-9]*)(\.[0-9]*[1-9])?`, starts with the minus sign exactly if the sign bit is set, denotes
the very number, and has a point exactly if that is no integer. -/
theorem printed_number_is_canonical (x : Float) (hfinite : Number.isFinite x = true) :
    ∃ q : ℚ, denoted? (logged.text x).toList = some q ∧ Number.Rounds q x ∧
      (printed.text x).toList ∈ canonicalNumeral.matches' ∧
      ((printed.text x).toList.head? = some '-' ↔ Number.isNegative x = true) ∧
      denoted? (printed.text x).toList = some q ∧
      ('.' ∉ (printed.text x).toList ↔ ∃ m : ℤ, q = m) := by
  have hnormal : (Numeral.ofDecimal (Number.shortestDecimal x)).Normal :=
    Numeral.normal_ofDecimal (Number.shortestDecimal_eq_zero hfinite)
  have hvalue := (Numeral.ofDecimal_same (Number.shortestDecimal x)).value_eq
  have hrounds := rounds_withSign hfinite
  have hlogged := denoted?_text logged hfinite (value_logged hnormal)
  have hprinted := denoted?_text printed hfinite (value_printed hnormal)
  have htext := text_of_isFinite printed hfinite
  rw [printed_magnitude, List.append_nil] at htext
  rw [← hvalue] at hlogged hprinted
  refine ⟨_, hlogged, hrounds, ?_, ?_, hprinted, ?_⟩
  · rw [htext]
    apply hnormal.mem_canonicalNumeral
    rw [signText]
    split <;> simp
  · rw [htext]
    exact minus_head_iff hnormal x _
  · rw [htext, point_mem_iff hnormal, not_not, hnormal.fraction_eq_nil_iff, ← hvalue,
      withSign_isInteger_iff]

/-- The exponent of a small number is turned into zeros behind the point, and the negative zero loses
its point but not its sign. -/
theorem printed_number_is_canonical_small :
    (Number.isFinite (-2.5e-7) = true ∧ NumberStyle.logged.text (-2.5e-7) = "-2.5e-07" ∧
      NumberStyle.printed.text (-2.5e-7) = "-0.00000025" ∧
      ∃ q : ℚ, denoted? "-2.5e-07".toList = some q ∧ Number.Rounds q (-2.5e-7) ∧
        "-0.00000025".toList ∈ canonicalNumeral.matches' ∧
        denoted? "-0.00000025".toList = some q ∧ ¬∃ m : ℤ, q = m) ∧
    Number.isFinite (-0.0) = true ∧ NumberStyle.logged.text (-0.0) = "-0.0" ∧
      NumberStyle.printed.text (-0.0) = "-0" ∧
      ∃ q : ℚ, denoted? "-0.0".toList = some q ∧ Number.Rounds q (-0.0) ∧
        "-0".toList ∈ canonicalNumeral.matches' ∧ denoted? "-0".toList = some q := by
  constructor
  · have hfinite : Number.isFinite (-2.5e-7) = true := by decide +kernel
    have hlogged : NumberStyle.logged.text (-2.5e-7) = "-2.5e-07" := by decide +kernel
    have hprinted : NumberStyle.printed.text (-2.5e-7) = "-0.00000025" := by decide +kernel
    obtain ⟨q, hdenoted, hrounds, hpattern, _, hsame, hinteger⟩ :=
      printed_number_is_canonical (-2.5e-7) hfinite
    rw [hlogged] at hdenoted
    rw [hprinted] at hpattern hsame hinteger
    refine ⟨hfinite, hlogged, hprinted, q, hdenoted, hrounds, hpattern, hsame, ?_⟩
    rw [← hinteger]
    decide
  · have hfinite : Number.isFinite (-0.0) = true := by decide +kernel
    have hlogged : NumberStyle.logged.text (-0.0) = "-0.0" := by decide +kernel
    have hprinted : NumberStyle.printed.text (-0.0) = "-0" := by decide +kernel
    obtain ⟨q, hdenoted, hrounds, hpattern, _, hsame, _⟩ :=
      printed_number_is_canonical (-0.0) hfinite
    rw [hlogged] at hdenoted
    rw [hprinted] at hpattern hsame
    exact ⟨hfinite, hlogged, hprinted, q, hdenoted, hrounds, hpattern, hsame⟩

end Glass
