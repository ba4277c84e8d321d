import Glass.Proofs.RoundedRatio
import Glass.Proofs.SpacedWords

/-!
Integers as literals. The digits of a number in base sixteen, eight, two or ten, behind any zeros
and with small and capital letters mixed, are read as one literal. Its value is the double that the
number is rounded to, whatever the base.
-/

namespace Glass

/-- What a digit is written as; a letter may be small or capital. -/
def digitChars (d : Nat) : List Char := [Nat.digitChar d, (Nat.digitChar d).toUpper]

/-- The text consists of digits of the base that denote the number, the highest first. There may be
zeros in front. -/
def Spells (base n : Nat) (text : List Char) : Prop :=
  ∃ digits : List Nat, digits ≠ [] ∧
    List.Forall₂ (fun d c => d < base ∧ c ∈ digitChars d) digits text ∧
    Nat.ofDigits base digits.reverse = n

/-- The texts that a number may be written as. -/
inductive IntegerSpelling (n : Nat) : List Char → Prop where
  | based (base : Base) {letter : Char} {digits : List Char} :
      letter ∈ base.letters → Spells base.size n digits →
      IntegerSpelling n ('0' :: letter :: digits)
  | decimal {digits : List Char} : Spells 10 n digits → IntegerSpelling n digits

section Digits

theorem digitValue_of_mem {d : Nat} {c : Char} (hd : d < 16) (hc : c ∈ digitChars d) :
    digitValue c = d := by
  have hvalues : ∀ d < 16, (digitChars d).all (digitValue · == d) = true := by decide
  exact eq_of_beq (List.all_eq_true.mp (hvalues d hd) c hc)

theorem isDigit_of_mem {d : Nat} {c : Char} (hd : d < 10) (hc : c ∈ digitChars d) :
    c.isDigit = true := by
  have hdigits : ∀ d < 10, (digitChars d).all Char.isDigit = true := by decide
  exact List.all_eq_true.mp (hdigits d hd) c hc

theorem Base.isDigit_of_mem (base : Base) {d : Nat} {c : Char} (hd : d < base.size)
    (hc : c ∈ digitChars d) : base.isDigit c = true := by
  have hdigits : ∀ d < base.size, (digitChars d).all base.isDigit = true := by
    cases base <;> decide
  exact List.all_eq_true.mp (hdigits d hd) c hc

theorem ofDigits_eq_ofDigits_reverse (base : Nat) (text : List Char) :
    ofDigits base text = Nat.ofDigits base (text.map digitValue).reverse := by
  rw [Nat.ofDigits_eq_foldr, List.foldr_reverse, List.foldl_map, ofDigits]
  simp only [Nat.cast_id, Nat.add_comm]

namespace Spells

variable {base n : Nat} {text : List Char} (h : Spells base n text)
include h

theorem ofDigits_eq (hbase : base ≤ 16) : ofDigits base text = n := by
  obtain ⟨digits, _, hwritten, rfl⟩ := h
  have hvalues : List.Forall₂ (fun d c => d = digitValue c) digits text :=
    hwritten.imp fun _ _ hdigit => (digitValue_of_mem (hdigit.1.trans_le hbase) hdigit.2).symm
  rw [← List.forall₂_map_right_iff, List.forall₂_eq_eq_eq] at hvalues
  rw [ofDigits_eq_ofDigits_reverse, hvalues]

/-- All the characters are digits, and there is at least one. -/
theorem isRun {p : Char → Bool} (hp : ∀ d < base, ∀ c ∈ digitChars d, p c = true) :
    IsRun p text := by
  obtain ⟨digits, hnonempty, hwritten, _⟩ := h
  constructor
  · rintro rfl
    exact hnonempty (List.forall₂_nil_right_iff.mp hwritten)
  · intro c member
    obtain ⟨i, hi, rfl⟩ := List.getElem_of_mem member
    obtain ⟨hd, hc⟩ := hwritten.get (hwritten.length_eq ▸ hi) hi
    exact hp _ hd _ hc

end Spells

end Digits

namespace NumberLiteral

theorem read_based {base : Base} {letter : Char} {digits : List Char}
    (hletter : letter ∈ base.letters) (hdigits : IsRun base.isDigit digits) :
    read ('0' :: letter :: digits) =
      ⟨'0' :: letter :: digits, Number.ofRatio false (ofDigits base.size digits) 1⟩ := by
  have hall : digits.takeWhile base.isDigit = digits := List.takeWhile_eq_self_iff.mpr hdigits.2
  have hnonempty : ¬digits.isEmpty = true := mt List.isEmpty_iff.mp hdigits.1
  simp only [read, readBased?, Base.ofLetter?_eq_some_iff.mpr hletter, hall, if_neg hnonempty,
    Option.getD_some]

theorem read_digits {digits : List Char} (hdigits : IsRun Char.isDigit digits) :
    read digits = ⟨digits, Number.ofRatio false (ofDigits 10 digits) 1⟩ := by
  have hread := @read_positional digits [] [] hdigits nofun nofun
  have hvalue : (⟨ofDigits 10 digits, 0⟩ : Decimal).toFloat =
      Number.ofRatio false (ofDigits 10 digits) 1 := by
    rw [Decimal.toFloat, Decimal.nearestBits_eq, Number.ofRatio]
    simp
  simpa [pointAnd, hvalue] using hread

end NumberLiteral

/-- However an integer is written, the literal is all of the text, and its value depends on the
integer only. -/
theorem IntegerSpelling.read_eq {n : Nat} {text : List Char} (h : IntegerSpelling n text) :
    NumberLiteral.read text = ⟨text, Number.ofRatio false n 1⟩ := by
  cases h with
  | based base hletter hdigits =>
      have hsize : base.size ≤ 16 := by cases base <;> decide
      have hrun := hdigits.isRun fun d hd c hc => base.isDigit_of_mem hd hc
      rw [NumberLiteral.read_based hletter hrun, hdigits.ofDigits_eq hsize]
  | decimal hdigits =>
      have hrun := hdigits.isRun fun d hd c hc => isDigit_of_mem hd hc
      rw [NumberLiteral.read_digits hrun, hdigits.ofDigits_eq (by decide)]

theorem IntegerSpelling.first {n : Nat} {text : List Char} (h : IntegerSpelling n text) :
    ∃ c rest, text = c :: rest ∧ c.isDigit = true := by
  cases h with
  | based => exact ⟨_, _, rfl, rfl⟩
  | decimal hdigits =>
      obtain ⟨hnonempty, hall⟩ := hdigits.isRun fun d hd c hc => isDigit_of_mem hd hc
      obtain ⟨c, rest, rfl⟩ := List.exists_cons_of_ne_nil hnonempty
      exact ⟨c, rest, rfl, hall c List.mem_cons_self⟩

/-- A text that is one number literal makes one token. -/
theorem tokenize_number {text : String} {c : Char} {rest : List Char} {x : Float}
    (htext : text.toList = c :: rest) (hdigit : c.isDigit = true)
    (hread : NumberLiteral.read text.toList = ⟨text.toList, x⟩) :
    tokenize text =
      [{ kind := .number
         payload := .number x
         span := { start := 0, stop := text.length }
         line := 1
         column := 1 }] := by
  obtain ⟨hblank, hslash⟩ := isWhitespace_eq_false (Or.inl hdigit)
  have hquote : c ≠ '"' := by
    rintro rfl
    cases hdigit
  have hscan : Lexeme.scan (c :: rest) = .whole .number (.number x) (c :: rest) := by
    rw [htext] at hread
    simp only [Lexeme.scan, if_neg hquote, if_pos hdigit, hread]
  have hplaced := placedLexemes_scan {} (triviaLength_eq_zero rest hblank hslash)
  have hsource : (Lexeme.whole .number (.number x) (c :: rest)).source = c :: rest := rfl
  rw [hscan, hsource, List.drop_length, placedLexemes] at hplaced
  have hlength : (c :: rest).length = text.length := by rw [← htext, String.length_toList]
  rw [tokenize, lexemesOf, htext, hplaced]
  simp [PlacedLexeme.token, Lexeme.token, Lexeme.whole, ← hlength]

/-- There is one double that is not negative to which a number is rounded, and however the number is
written, the text is one literal with that value. -/
theorem integer_literals_agree_across_bases (n : Nat) :
    ∃ x, Number.isNegative x = false ∧ Number.Rounds n x ∧
      (∀ y, Number.isNegative y = false → Number.Rounds n y → y = x) ∧
      ∀ text : String, IntegerSpelling n text.toList →
        tokenize text =
          [{ kind := .number
             payload := .number x
             span := { start := 0, stop := text.length }
             line := 1
             column := 1 }] := by
  have hrounds := Number.rounds_ofNat n
  have hsign := Number.not_isNegative_ofRatio n 1
  refine ⟨_, hsign, hrounds, fun y hy hround => hround.unique hrounds (hy.trans hsign.symm), ?_⟩
  intro text hspelling
  obtain ⟨c, rest, htext, hdigit⟩ := hspelling.first
  exact tokenize_number htext hdigit hspelling.read_eq

/-- One less than the fifty-fourth power of two lies halfway between two doubles. In every base it is
read as that power, which is the even one of the two. -/
theorem integer_literals_agree_across_bases_tie :
    ∃ x, Number.Rounds (18014398509481983 : Nat) x ∧ Number.units x = 2 ^ 54 * Number.unitsPerOne ∧
      (tokenize "0X03FFffFFffFFffF").map Token.payload = [.number x] ∧
      (tokenize "0o777777777777777777").map Token.payload = [.number x] ∧
      (tokenize "0018014398509481983").map Token.payload = [.number x] := by
  obtain ⟨x, _, hrounds, hunique, htokens⟩ := integer_literals_agree_across_bases 18014398509481983
  have hhex : IntegerSpelling 18014398509481983 "0X03FFffFFffFFffF".toList :=
    .based .hexadecimal (by decide) ⟨[0, 3, 15, 15, 15, 15, 15, 15, 15, 15, 15, 15, 15, 15, 15],
      by decide, by decide +kernel, by decide +kernel⟩
  have hoctal : IntegerSpelling 18014398509481983 "0o777777777777777777".toList :=
    .based .octal (by decide) ⟨List.replicate 18 7, by decide, by decide +kernel, by decide +kernel⟩
  have hdecimal : IntegerSpelling 18014398509481983 "0018014398509481983".toList :=
    .decimal ⟨[0, 0, 1, 8, 0, 1, 4, 3, 9, 8, 5, 0, 9, 4, 8, 1, 9, 8, 3],
      by decide, by decide +kernel, by decide +kernel⟩
  refine ⟨x, hrounds, ?_, ?_, ?_, ?_⟩
  · rw [← hunique _ (Number.not_isNegative_ofRatio _ 1) (Number.rounds_ofNat _)]
    decide +kernel
  · rw [htokens _ hhex]
    rfl
  · rw [htokens _ hoctal]
    rfl
  · rw [htokens _ hdecimal]
    rfl

end Glass
