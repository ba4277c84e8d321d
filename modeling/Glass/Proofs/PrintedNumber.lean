import Glass.Number.Style
import Glass.Proofs.LongestLexeme
import Glass.Proofs.NearestDouble

/-!
Printed numbers. Moving the point and trimming zeros leave the number that digits and point denote,
and the digits that are printed are read as one literal wherever no word and no point follows. So the
printed text of a double reads back as that double.
-/

namespace Glass

theorem digitValue_of_isDigit {c : Char} (h : c.isDigit = true) :
    digitValue c = c.toNat - '0'.toNat := if_pos h

theorem ofDigits_eq_ofDigitChars {digits : List Char} (h : ∀ c ∈ digits, c.isDigit = true) :
    ofDigits 10 digits = Nat.ofDigitChars 10 digits 0 := by
  rw [ofDigits, Nat.ofDigitChars_eq_foldl]
  apply List.foldl_ext
  intro n c member
  rw [digitValue_of_isDigit (h c member)]

theorem ofDigits_toDigits (n : Nat) : ofDigits 10 (Nat.toDigits 10 n) = n := by
  have hdigits : ∀ c ∈ Nat.toDigits 10 n, c.isDigit = true := fun _ member =>
    Nat.isDigit_of_mem_toDigits (by decide) (by decide) member
  rw [ofDigits_eq_ofDigitChars hdigits, Nat.ofDigitChars_ten_toDigits]

theorem ofDigits_append_zeros (base : Nat) (digits : List Char) (k : Nat) :
    ofDigits base (digits ++ List.replicate k '0') = ofDigits base digits * base ^ k := by
  induction k with
  | zero => simp
  | succ k ih =>
      have hzero : digitValue '0' = 0 := rfl
      rw [ofDigits] at ih
      rw [List.replicate_succ', ← List.append_assoc, ofDigits, List.foldl_append, ih]
      simp [hzero, pow_succ, mul_comm, mul_left_comm]

theorem ofDigits_zeros_append (base : Nat) (digits : List Char) (k : Nat) :
    ofDigits base (List.replicate k '0' ++ digits) = ofDigits base digits := by
  have hzeros : ofDigits base (List.replicate k '0') = 0 := by
    have h := ofDigits_append_zeros base [] k
    rwa [List.nil_append, show ofDigits base [] = 0 from rfl, Nat.zero_mul] at h
  rw [ofDigits] at hzeros
  rw [ofDigits, List.foldl_append, hzeros]
  rfl

/-- Zeros at the end of the digits count as places. -/
theorem Decimal.same_shift (digits k : Nat) {exponent shifted : Int} (h : shifted = exponent + k) :
    Decimal.Same ⟨digits * 10 ^ k, exponent⟩ ⟨digits, shifted⟩ := by
  have hplaces : k + exponent.toNat + (-shifted).toNat = shifted.toNat + (-exponent).toNat := by
    omega
  simp only [Decimal.Same, mul_assoc, ← pow_add]
  rw [← hplaces, add_assoc]

namespace Numeral

/-- The number that digits and point denote. -/
def decimal (n : Numeral) : Decimal := ⟨ofDigits 10 n.digits, n.point - n.digits.length⟩

/-- The zeros that are trimmed count as places. -/
theorem ofDecimal_same (d : Decimal) : d.Same (ofDecimal d).decimal := by
  obtain ⟨k, hzeros⟩ := eq_trimEnd_append '0' (Nat.toDigits 10 d.digits)
  have hvalue : d.digits = ofDigits 10 (ofDecimal d).digits * 10 ^ k := by
    rw [← ofDigits_append_zeros, ← ofDigits_toDigits d.digits]
    exact congrArg (ofDigits 10) hzeros
  have hpoint : (ofDecimal d).decimal.exponent = d.exponent + k := by
    have hlength := congrArg List.length hzeros
    rw [List.length_append, List.length_replicate] at hlength
    simp only [decimal, ofDecimal]
    omega
  have hsame : Decimal.Same ⟨ofDigits 10 (ofDecimal d).digits * 10 ^ k, d.exponent⟩
      ⟨ofDigits 10 (ofDecimal d).digits, (ofDecimal d).decimal.exponent⟩ :=
    Decimal.same_shift _ k hpoint
  rwa [← hvalue] at hsame

theorem ofDecimal_nearestBits (d : Decimal) :
    (ofDecimal d).decimal.nearestBits = d.nearestBits :=
  (ofDecimal_same d).nearestBits_eq.symm

/-- Writing the digits around the point denotes the same number. -/
theorem positional_same (n : Numeral) :
    Decimal.Same ⟨ofDigits 10 (n.whole ++ n.fraction), -n.fraction.length⟩ n.decimal := by
  rw [whole, fraction, decimal]
  by_cases hpoint : n.point ≤ 0
  · rw [if_pos hpoint, if_pos hpoint, List.length_append, List.length_replicate]
    have hdigits : ofDigits 10 (['0'] ++ (List.replicate (-n.point).toNat '0' ++ n.digits)) =
        ofDigits 10 n.digits := by
      rw [List.singleton_append, ← List.cons_append, ← List.replicate_succ, ofDigits_zeros_append]
    have hplaces : -(((-n.point).toNat + n.digits.length : Nat) : Int) =
        n.point - n.digits.length := by
      omega
    rw [hdigits, hplaces]
    rfl
  · rw [if_neg hpoint, if_neg hpoint]
    by_cases hinside : n.point.toNat ≤ n.digits.length
    · have hzeros : n.point.toNat - n.digits.length = 0 := Nat.sub_eq_zero_of_le hinside
      have hplaces : -((n.digits.drop n.point.toNat).length : Int) =
          n.point - n.digits.length := by
        rw [List.length_drop]
        omega
      rw [hzeros, List.replicate_zero, List.append_nil, List.take_append_drop, hplaces]
      rfl
    · have hbeyond : n.digits.length ≤ n.point.toNat := by omega
      rw [List.take_of_length_le hbeyond, List.drop_of_length_le hbeyond, List.append_nil,
        ofDigits_append_zeros]
      exact Decimal.same_shift _ _ (by simp; omega)

theorem positional_nearestBits (n : Numeral) :
    (⟨ofDigits 10 (n.whole ++ n.fraction), -n.fraction.length⟩ : Decimal).nearestBits =
      n.decimal.nearestBits :=
  n.positional_same.nearestBits_eq

theorem isDigit_ofDecimal (d : Decimal) : ∀ c ∈ (ofDecimal d).digits, c.isDigit = true := by
  intro c member
  obtain ⟨k, hzeros⟩ := eq_trimEnd_append '0' (Nat.toDigits 10 d.digits)
  have hmember : c ∈ Nat.toDigits 10 d.digits := by
    rw [hzeros]
    exact List.mem_append_left _ member
  exact Nat.isDigit_of_mem_toDigits (by decide) (by decide) hmember

section Digits

variable {n : Numeral} (hdigits : ∀ c ∈ n.digits, c.isDigit = true)
include hdigits

theorem isRun_whole : IsRun Char.isDigit n.whole := by
  unfold whole
  split
  next => exact ⟨by simp, by simp⟩
  next hpoint =>
    refine ⟨?_, fun c member => ?_⟩
    · intro hempty
      have hlength := congrArg List.length hempty
      simp only [List.length_append, List.length_take, List.length_replicate, List.length_nil]
        at hlength
      omega
    · rcases List.mem_append.mp member with hdigit | hzero
      · exact hdigits c (List.mem_of_mem_take hdigit)
      · rw [List.eq_of_mem_replicate hzero]
        rfl

theorem isDigit_fraction : ∀ c ∈ n.fraction, c.isDigit = true := by
  intro c member
  unfold fraction at member
  split at member
  next =>
    rcases List.mem_append.mp member with hzero | hdigit
    · rw [List.eq_of_mem_replicate hzero]
      rfl
    · exact hdigits c hdigit
  next => exact hdigits c (List.mem_of_mem_drop member)

end Digits

end Numeral

/-- No number goes on with the text. -/
def EndsNumber (rest : List Char) : Prop :=
  ∀ c, rest.head? = some c → isWordChar c = false ∧ c ≠ '.'

namespace NumberLiteral

theorem fractionPart_eq_nil {rest : List Char} (h : EndsNumber rest) : fractionPart rest = [] := by
  unfold fractionPart
  split
  · exact absurd rfl (h '.' rfl).2
  · rfl

theorem exponentPart_eq_nil {rest : List Char} (h : EndsNumber rest) : exponentPart rest = [] := by
  unfold exponentPart
  split
  · rename_i mark more
    rw [if_neg]
    rintro (rfl | rfl)
    · exact absurd (h 'e' rfl).1 (by decide)
    · exact absurd (h 'E' rfl).1 (by decide)
  · rfl

/-- The point and the digits behind it, as they are printed. -/
def pointAnd (fraction : List Char) : List Char :=
  if fraction.isEmpty then [] else '.' :: fraction

theorem pointAnd_head {fraction rest : List Char} (hrest : EndsNumber rest) {c : Char}
    (hc : (pointAnd fraction ++ rest).head? = some c) : isWordChar c = false := by
  unfold pointAnd at hc
  split at hc
  · exact (hrest c hc).1
  · obtain rfl := Option.some.inj hc
    rfl

theorem not_isDigit_of_not_isWordChar {c : Char} (h : isWordChar c = false) : c.isDigit = false := by
  simp only [isWordChar, Char.isAlphanum, Bool.or_eq_false_iff] at h
  exact h.1.2

theorem fractionPart_pointAnd {fraction rest : List Char}
    (hfraction : ∀ c ∈ fraction, c.isDigit = true) (hrest : EndsNumber rest) :
    fractionPart (pointAnd fraction ++ rest) = pointAnd fraction := by
  unfold pointAnd
  split
  · exact fractionPart_eq_nil hrest
  · rename_i hnonempty
    have hdigits : (fraction ++ rest).takeWhile Char.isDigit = fraction :=
      takeWhile_append_eq hfraction fun c hc => not_isDigit_of_not_isWordChar (hrest c hc).1
    have hsome : (fraction ++ rest).takeWhile Char.isDigit ≠ [] := by
      rw [hdigits]
      simpa using hnonempty
    rw [List.cons_append, fractionPart_point hsome, hdigits]

theorem readBased?_eq_none {whole more : List Char} (hwhole : IsRun Char.isDigit whole)
    (hmore : ∀ c, more.head? = some c → isWordChar c = false) :
    readBased? (whole ++ more) = none := by
  rw [Option.eq_none_iff_forall_ne_some]
  intro literal hread
  obtain ⟨base, letter, rest, htext, hletter, _, _⟩ := readBased?_eq_some hread
  have htake : (whole ++ more).takeWhile Char.isDigit = whole :=
    takeWhile_append_eq hwhole.2 fun c hc => not_isDigit_of_not_isWordChar (hmore c hc)
  have hzero : whole = ['0'] := by
    rw [← htake, htext]
    simp [letter_not_digit hletter]
  have hhead : more.head? = some letter := by
    rw [hzero, List.singleton_append] at htext
    rw [(List.cons.inj htext).2]
    rfl
  have hword := hmore letter hhead
  revert hletter hword
  cases base <;> simp only [Base.letters, List.mem_cons, List.not_mem_nil, or_false] <;>
    rintro (rfl | rfl) <;> decide

/-- Printed digits are read as one literal, whatever follows that cannot go on with a number. -/
theorem read_positional {whole fraction rest : List Char} (hwhole : IsRun Char.isDigit whole)
    (hfraction : ∀ c ∈ fraction, c.isDigit = true) (hrest : EndsNumber rest) :
    read (whole ++ (pointAnd fraction ++ rest)) =
      ⟨whole ++ pointAnd fraction,
        (⟨ofDigits 10 (whole ++ fraction), -fraction.length⟩ : Decimal).toFloat⟩ := by
  have hwhole' : (whole ++ (pointAnd fraction ++ rest)).takeWhile Char.isDigit = whole :=
    takeWhile_append_eq hwhole.2 fun c hc => not_isDigit_of_not_isWordChar (pointAnd_head hrest hc)
  have hplaces : (pointAnd fraction).drop 1 = fraction := by
    unfold pointAnd
    split
    next hempty => exact (List.isEmpty_iff.mp hempty).symm
    next => rfl
  have hbehind : (whole ++ (pointAnd fraction ++ rest)).drop
      (whole.length + (pointAnd fraction).length) = rest := by
    rw [← List.append_assoc, ← List.length_append, List.drop_left]
  rw [read, readBased?_eq_none hwhole fun c hc => pointAnd_head hrest hc, Option.getD_none,
    readDecimal, hwhole', List.drop_left, fractionPart_pointAnd hfraction hrest, hbehind,
    exponentPart_eq_nil hrest, hplaces, List.append_nil]
  simp [exponentValue]

end NumberLiteral

namespace NumberStyle

theorem printed_text {x : Float} (hfinite : Number.isFinite x = true)
    (hsign : Number.isNegative x = false) :
    (printed.text x).toList =
      (Numeral.ofDecimal (Number.shortestDecimal x)).whole ++
        NumberLiteral.pointAnd (Numeral.ofDecimal (Number.shortestDecimal x)).fraction := by
  rw [Number.isFinite, Bool.and_eq_true, Bool.not_eq_true', Bool.not_eq_true'] at hfinite
  have hnan : ¬x.isNaN = true := by rw [hfinite.1]; decide
  have hinf : ¬x.isInf = true := by rw [hfinite.2]; decide
  rw [text, if_neg hnan]
  simp only [if_neg hinf, hsign]
  rw [String.toList_append, String.toList_ofList]
  rfl

theorem printed_first {x : Float} (hfinite : Number.isFinite x = true)
    (hsign : Number.isNegative x = false) :
    ∃ c more, (printed.text x).toList = c :: more ∧ c.isDigit = true := by
  have hwhole := Numeral.isRun_whole (Numeral.isDigit_ofDecimal (Number.shortestDecimal x))
  obtain ⟨c, more, hfirst⟩ := List.exists_cons_of_ne_nil hwhole.1
  rw [printed_text hfinite hsign, hfirst, List.cons_append]
  exact ⟨c, _, rfl, hwhole.2 c (by simp [hfirst])⟩

/-- A printed double reads back as itself. -/
theorem read_printed {x : Float} (hfinite : Number.isFinite x = true)
    (hsign : Number.isNegative x = false) {rest : List Char} (hrest : EndsNumber rest) :
    NumberLiteral.read ((printed.text x).toList ++ rest) = ⟨(printed.text x).toList, x⟩ := by
  have hdigits := Numeral.isDigit_ofDecimal (Number.shortestDecimal x)
  have hread := NumberLiteral.read_positional (Numeral.isRun_whole hdigits)
    (Numeral.isDigit_fraction hdigits) hrest
  rw [← List.append_assoc, ← printed_text hfinite hsign] at hread
  rw [hread]
  congr 1
  rw [Decimal.toFloat, Numeral.positional_nearestBits, Numeral.ofDecimal_nearestBits,
    Number.shortestDecimal_nearestBits hfinite, ← hsign, Number.ofSignAndBits_self]

end NumberStyle

end Glass
