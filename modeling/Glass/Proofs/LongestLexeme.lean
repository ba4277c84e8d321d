import Glass.Proofs.Tokenization

/-!
Each lexeme is as long as it can be. The texts that make a token fall into four classes, which are
described here without regard to how they are scanned. Their first characters tell the classes apart,
and in its class the scanned lexeme is the longest that the text starts with, whatever follows. Flaws
stand exactly where no text of a class does.
-/

namespace Glass

/-- What may stand between the quotes of a string literal. -/
inductive StringItems : List Char → Prop where
  | nil : StringItems []
  | plain {c : Char} {rest : List Char} :
      c ≠ '"' → c ≠ '\\' → c ≠ '\n' → StringItems rest → StringItems (c :: rest)
  | escape {c : Char} {rest : List Char} :
      c ∈ ['n', 't', 'r', '0', '\\', '"', '\x27'] → StringItems rest →
      StringItems ('\\' :: c :: rest)

/-- One or more characters of a sort. -/
def IsRun (p : Char → Bool) (text : List Char) : Prop := text ≠ [] ∧ ∀ c ∈ text, p c = true

/-- Nothing, or a point and digits. -/
inductive IsFraction : List Char → Prop where
  | none : IsFraction []
  | places {digits : List Char} : IsRun Char.isDigit digits → IsFraction ('.' :: digits)

/-- Nothing, or a mark, perhaps a sign, and digits. -/
inductive IsExponent : List Char → Prop where
  | none : IsExponent []
  | power {mark : Char} {sign digits : List Char} :
      mark ∈ ['e', 'E'] → sign ∈ [[], ['+'], ['-']] → IsRun Char.isDigit digits →
      IsExponent (mark :: (sign ++ digits))

def Base.letters : Base → List Char
  | .hexadecimal => ['x', 'X']
  | .octal => ['o', 'O']
  | .binary => ['b', 'B']

def Base.digits : Base → List Char
  | .hexadecimal => "0123456789abcdefABCDEF".toList
  | .octal => "01234567".toList
  | .binary => "01".toList

inductive IsNumber : List Char → Prop where
  | decimal {whole fraction exponent : List Char} :
      IsRun Char.isDigit whole → IsFraction fraction → IsExponent exponent →
      IsNumber (whole ++ (fraction ++ exponent))
  | based {base : Base} {letter : Char} {digits : List Char} :
      letter ∈ base.letters → IsRun (base.digits.contains ·) digits →
      IsNumber ('0' :: letter :: digits)

/-- The classes of texts that make a token. -/
inductive LexemeClass where
  | string | number | word | symbol
  deriving DecidableEq, Repr

/-- The texts of a class. -/
inductive LexemeClass.Contains : LexemeClass → List Char → Prop where
  | string {items : List Char} : StringItems items → Contains .string ('"' :: (items ++ ['"']))
  | number {text : List Char} : IsNumber text → Contains .number text
  | word {c : Char} {rest : List Char} :
      (c.isAlpha || c == '_') = true → (∀ d ∈ rest, (d.isAlphanum || d == '_') = true) →
      Contains .word (c :: rest)
  | symbol (s : Symbol) : Contains .symbol s.spelling.toList

/-- The kind of token that a text of a class makes. A word makes a keyword exactly if it is spelled
as one. -/
inductive LexemeClass.Gives : LexemeClass → List Char → Kind → Prop where
  | string {text : List Char} : Gives .string text .string
  | number {text : List Char} : Gives .number text .number
  | keyword (k : Keyword) : Gives .word k.spelling.toList (.keyword k)
  | identifier {text : List Char} :
      (∀ k : Keyword, k.spelling.toList ≠ text) → Gives .word text .identifier
  | symbol (s : Symbol) : Gives .symbol s.spelling.toList (.symbol s)

/-- The part is the longest of those with the property that the text starts with. -/
structure Longest (P : List Char → Prop) (part text : List Char) : Prop where
  holds : P part
  isPrefix : part <+: text
  length_le : ∀ other, P other → other <+: text → other.length ≤ part.length

/-- Two longest parts make a longest one if a shorter first part leaves no room for a second. -/
theorem Longest.append {P Q : List Char → Prop} {first second text : List Char}
    (hfirst : Longest P first text) (hsecond : Longest Q second (text.drop first.length))
    (hstop : ∀ x y, P x → Q y → x ++ y <+: text → x = first ∨ y = []) :
    Longest (fun part => ∃ x y, P x ∧ Q y ∧ part = x ++ y) (first ++ second) text := by
  refine ⟨⟨first, second, hfirst.holds, hsecond.holds, rfl⟩, ?_, ?_⟩
  · obtain ⟨behind, rfl⟩ := hfirst.isPrefix
    rw [List.drop_left] at hsecond
    exact (List.prefix_append_right_inj first).mpr hsecond.isPrefix
  · rintro _ ⟨x, y, hx, hy, rfl⟩ hleading
    rw [List.length_append, List.length_append]
    rcases hstop x y hx hy hleading with rfl | rfl
    · obtain ⟨behind, rfl⟩ := hfirst.isPrefix
      rw [List.drop_left] at hsecond
      have hle := hsecond.length_le y hy ((List.prefix_append_right_inj x).mp hleading)
      omega
    · rw [List.append_nil] at hleading
      have hle := hfirst.length_le x hx hleading
      simp only [List.length_nil]
      omega

/-- A run stops before the first character of another sort. -/
theorem IsRun.isPrefix_takeWhile {p : Char → Bool} {part text : List Char}
    (hpart : ∀ c ∈ part, p c = true) (h : part <+: text) : part <+: text.takeWhile p := by
  obtain ⟨rest, rfl⟩ := h
  rw [List.takeWhile_append_of_pos hpart]
  exact List.prefix_append part _

theorem longest_takeWhile {p : Char → Bool} {text : List Char} (h : text.takeWhile p ≠ []) :
    Longest (IsRun p) (text.takeWhile p) text where
  holds := ⟨h, fun _ member => List.all_eq_true.mp List.all_takeWhile _ member⟩
  isPrefix := List.takeWhile_prefix p
  length_le := fun _ hother hleading => (IsRun.isPrefix_takeWhile hother.2 hleading).length_le

theorem takeWhile_append_eq {p : Char → Bool} {part more : List Char}
    (hpart : ∀ c ∈ part, p c = true) (hmore : ∀ c, more.head? = some c → p c = false) :
    (part ++ more).takeWhile p = part := by
  rw [List.takeWhile_append_of_pos hpart]
  cases more with
  | nil => simp
  | cons c more => simp [hmore c rfl]

/-- A run that is not the longest is followed by one more of its sort. -/
theorem IsRun.eq_or_stop {p : Char → Bool} {x y text : List Char} (hx : IsRun p x)
    (hleading : x ++ y <+: text) (hy : ∀ c, y.head? = some c → p c = false) :
    x = text.takeWhile p ∨ y = [] := by
  obtain ⟨rest, rfl⟩ := hleading
  cases y with
  | nil => exact Or.inr rfl
  | cons c y =>
      left
      rw [List.append_assoc, takeWhile_append_eq hx.2]
      exact hy

theorem Base.ofLetter?_eq_some_iff {letter : Char} {base : Base} :
    Base.ofLetter? letter = some base ↔ letter ∈ base.letters := by
  constructor
  · intro h
    unfold Base.ofLetter? at h
    split at h <;> cases h <;> decide
  · intro member
    cases base <;> simp only [Base.letters, List.mem_cons, List.not_mem_nil, or_false] at member <;>
      rcases member with rfl | rfl <;> rfl

/-- What holds of the ASCII characters and of those beyond them holds of all. -/
theorem forall_char_of_ascii {P : Char → Prop} (hascii : ∀ n < 128, P (Char.ofNat n))
    (hbeyond : ∀ c : Char, 128 ≤ c.toNat → P c) (c : Char) : P c := by
  by_cases hc : c.toNat < 128
  · rw [← Char.ofNat_toNat c]
    exact hascii _ hc
  · exact hbeyond c (Nat.not_lt.mp hc)

theorem Base.toNat_lt_of_isDigit {base : Base} {c : Char} (h : base.isDigit c = true) :
    c.toNat < 128 := by
  have hval : c.val.toNat = c.toNat := rfl
  cases base with
  | hexadecimal =>
      simp [Base.isDigit, Char.isDigit, Char.le_def, UInt32.le_iff_toNat_le, hval] at h
      omega
  | octal =>
      simp [Base.isDigit, Char.le_def, UInt32.le_iff_toNat_le, hval] at h
      omega
  | binary =>
      simp only [Base.isDigit, Bool.or_eq_true, beq_iff_eq] at h
      rcases h with rfl | rfl <;> decide

theorem Base.isDigit_eq_contains (base : Base) (c : Char) :
    base.isDigit c = base.digits.contains c := by
  revert c
  apply forall_char_of_ascii
  · cases base <;> decide +kernel
  · intro c hc
    have hcontains : base.digits.contains c = false := by
      have hdigits : base.digits.all (·.toNat < 128) = true := by cases base <;> rfl
      rw [List.contains_eq_mem, decide_eq_false_iff_not]
      intro member
      have hlt : c.toNat < 128 := by simpa using List.all_eq_true.mp hdigits c member
      exact absurd hlt (Nat.not_lt.mpr hc)
    rw [hcontains, Bool.eq_false_iff]
    intro hdigit
    exact absurd (Base.toNat_lt_of_isDigit hdigit) (Nat.not_lt.mpr hc)

theorem IsFraction.head {fraction : List Char} (h : IsFraction fraction) :
    ∀ c, fraction.head? = some c → c = '.' := by
  cases h with
  | none => nofun
  | places =>
      intro c hc
      exact (Option.some.inj hc).symm

theorem IsExponent.head {exponent : List Char} (h : IsExponent exponent) :
    ∀ c, exponent.head? = some c → c = 'e' ∨ c = 'E' := by
  cases h with
  | none => nofun
  | power hmark =>
      intro c hc
      obtain rfl := Option.some.inj hc
      simpa using hmark

theorem IsExponent.head_not_digit {exponent : List Char} (h : IsExponent exponent) :
    ∀ c, exponent.head? = some c → c.isDigit = false := by
  intro c hc
  rcases h.head c hc with rfl | rfl <;> rfl

/-- The parts of a decimal numeral behind its whole part. -/
def IsTail (text : List Char) : Prop :=
  ∃ fraction exponent, IsFraction fraction ∧ IsExponent exponent ∧ text = fraction ++ exponent

theorem IsTail.head_not_digit {tail : List Char} (h : IsTail tail) :
    ∀ c, tail.head? = some c → c.isDigit = false := by
  obtain ⟨fraction, exponent, hfraction, hexponent, rfl⟩ := h
  intro c hc
  rw [List.head?_append, Option.or_eq_some_iff] at hc
  rcases hc with hc | ⟨_, hc⟩
  · rw [hfraction.head c hc]
    rfl
  · exact hexponent.head_not_digit c hc

/-- The digits that come next are taken if there are any. -/
theorem IsRun.takeWhile_ne_nil {p : Char → Bool} {part : List Char} (h : IsRun p part)
    (rest : List Char) : (part ++ rest).takeWhile p ≠ [] := by
  rw [List.takeWhile_append_of_pos h.2]
  simp [h.1]

namespace NumberLiteral

theorem fractionPart_point {rest : List Char} (h : rest.takeWhile Char.isDigit ≠ []) :
    fractionPart ('.' :: rest) = '.' :: rest.takeWhile Char.isDigit := by
  simp [fractionPart, h]

theorem longest_fractionPart (text : List Char) : Longest IsFraction (fractionPart text) text := by
  refine ⟨?_, (leads_fractionPart text).isPrefix, ?_⟩
  · unfold fractionPart
    split
    · rename_i rest
      dsimp only
      split
      · exact .none
      · rename_i hdigits
        exact .places (longest_takeWhile (by simpa using hdigits)).holds
    · exact .none
  · intro other hother hleading
    cases hother with
    | none => exact Nat.zero_le _
    | @places digits hdigits =>
        obtain ⟨rest, rfl⟩ := hleading
        have htake := IsRun.isPrefix_takeWhile hdigits.2 (List.prefix_append digits rest)
        rw [List.cons_append, fractionPart_point (hdigits.takeWhile_ne_nil rest)]
        exact Nat.succ_le_succ htake.length_le

theorem signPart_mem (text : List Char) : signPart text ∈ [[], ['+'], ['-']] := by
  unfold signPart
  split <;> simp

/-- The sign in front of digits is the one that is read. -/
theorem signPart_append {sign digits : List Char} (hsign : sign ∈ [[], ['+'], ['-']])
    (hdigits : IsRun Char.isDigit digits) (rest : List Char) :
    signPart (sign ++ (digits ++ rest)) = sign := by
  simp only [List.mem_cons, List.not_mem_nil, or_false] at hsign
  rcases hsign with rfl | rfl | rfl
  · obtain ⟨c, more, rfl⟩ := List.exists_cons_of_ne_nil hdigits.1
    have hc := hdigits.2 c (by simp)
    have hplus : c ≠ '+' := by
      rintro rfl
      cases hc
    have hminus : c ≠ '-' := by
      rintro rfl
      cases hc
    simp [signPart, hplus, hminus]
  · rfl
  · rfl

theorem exponentPart_mark {mark : Char} {sign digits : List Char} (hmark : mark = 'e' ∨ mark = 'E')
    (hsign : sign ∈ [[], ['+'], ['-']]) (hdigits : IsRun Char.isDigit digits) (rest : List Char) :
    exponentPart (mark :: (sign ++ (digits ++ rest))) =
      mark :: (sign ++ (digits ++ rest).takeWhile Char.isDigit) := by
  have hnonempty := hdigits.takeWhile_ne_nil rest
  simp only [exponentPart, if_pos hmark, signPart_append hsign hdigits, List.drop_left]
  simp [hnonempty]

theorem longest_exponentPart (text : List Char) : Longest IsExponent (exponentPart text) text := by
  refine ⟨?_, (leads_exponentPart text).isPrefix, ?_⟩
  · unfold exponentPart
    split
    · rename_i mark rest
      split
      · rename_i hmark
        dsimp only
        split
        · exact .none
        · rename_i hdigits
          refine .power (by simpa using hmark) (signPart_mem rest) ?_
          exact (longest_takeWhile (by simpa using hdigits)).holds
      · exact .none
    · exact .none
  · intro other hother hleading
    cases hother with
    | none => exact Nat.zero_le _
    | @power mark sign digits hmark hsign hdigits =>
        obtain ⟨rest, rfl⟩ := hleading
        have htake := IsRun.isPrefix_takeWhile hdigits.2 (List.prefix_append digits rest)
        have hpart := exponentPart_mark (by simpa using hmark) hsign hdigits rest
        rw [List.cons_append, List.append_assoc, hpart]
        simp only [List.length_cons, List.length_append]
        have := htake.length_le
        omega

theorem longest_tail (text : List Char) :
    Longest IsTail (fractionPart text ++ exponentPart (text.drop (fractionPart text).length))
      text := by
  apply (longest_fractionPart text).append (longest_exponentPart _)
  intro fraction exponent hfraction hexponent hleading
  obtain ⟨rest, rfl⟩ := hleading
  cases hfraction with
  | none =>
      -- Where a fraction can start, no exponent does.
      cases exponent with
      | nil => exact Or.inr rfl
      | cons mark more =>
          left
          rcases hexponent.head mark rfl with rfl | rfl <;> rfl
  | @places digits hdigits =>
      have hstop := hdigits.eq_or_stop (List.prefix_append (digits ++ exponent) rest)
        hexponent.head_not_digit
      refine hstop.imp_left fun hdigits' => ?_
      have hnonempty : (digits ++ exponent ++ rest).takeWhile Char.isDigit ≠ [] := by
        rw [← hdigits']
        exact hdigits.1
      rw [List.cons_append, List.cons_append, fractionPart_point hnonempty, ← hdigits']

/-- The longest decimal numeral is read where a digit stands. -/
theorem longest_readDecimal {c : Char} (rest : List Char) (hdigit : c.isDigit = true) :
    Longest (fun part => ∃ whole tail, IsRun Char.isDigit whole ∧ IsTail tail ∧ part = whole ++ tail)
      (readDecimal (c :: rest)).source (c :: rest) := by
  have hwhole : Longest (IsRun Char.isDigit) ((c :: rest).takeWhile Char.isDigit) (c :: rest) :=
    longest_takeWhile (by simp [hdigit])
  have htail := longest_tail ((c :: rest).drop ((c :: rest).takeWhile Char.isDigit).length)
  have hlongest := hwhole.append htail fun whole tail hwhole htail hleading =>
    hwhole.eq_or_stop hleading htail.head_not_digit
  rw [List.drop_drop, ← List.append_assoc] at hlongest
  exact hlongest

/-- A literal that names its base is read where one stands. -/
theorem readBased?_based {base : Base} {letter : Char} {digits : List Char}
    (hletter : letter ∈ base.letters) (hdigits : IsRun (base.digits.contains ·) digits)
    (rest : List Char) :
    ∃ value, readBased? ('0' :: letter :: (digits ++ rest)) =
      some ⟨'0' :: letter :: (digits ++ rest).takeWhile (base.digits.contains ·), value⟩ := by
  have hsame : base.isDigit = (base.digits.contains ·) := funext base.isDigit_eq_contains
  have hnonempty := hdigits.takeWhile_ne_nil rest
  simp only [readBased?, Base.ofLetter?_eq_some_iff.mpr hletter, hsame]
  exact ⟨_, if_neg (by simpa using hnonempty)⟩

/-- What is read as a literal that names its base. -/
theorem readBased?_eq_some {text : List Char} {literal : NumberLiteral}
    (h : readBased? text = some literal) :
    ∃ (base : Base) (letter : Char) (rest : List Char),
      text = '0' :: letter :: rest ∧ letter ∈ base.letters ∧
      literal.source = '0' :: letter :: rest.takeWhile (base.digits.contains ·) ∧
      rest.takeWhile (base.digits.contains ·) ≠ [] := by
  unfold readBased? at h
  split at h
  · rename_i letter rest
    split at h
    · cases h
    · rename_i base hbase
      have hsame : base.isDigit = (base.digits.contains ·) := funext base.isDigit_eq_contains
      rw [hsame] at h
      dsimp only at h
      split at h
      · cases h
      · rename_i hdigits
        cases h
        exact ⟨base, letter, rest, rfl, Base.ofLetter?_eq_some_iff.mp hbase, rfl,
          by simpa using hdigits⟩
  · cases h

/-- A letter that names a base ends a decimal numeral. -/
theorem not_tail_of_letter {base : Base} {letter : Char} {tail rest : List Char}
    (hletter : letter ∈ base.letters) (htail : IsTail tail) (h : tail <+: letter :: rest) :
    tail = [] := by
  cases tail with
  | nil => rfl
  | cons c more =>
      obtain ⟨rfl, _⟩ := List.cons_prefix_cons.mp h
      obtain ⟨fraction, exponent, hfraction, hexponent, hparts⟩ := htail
      have hhead : (fraction ++ exponent).head? = some c := by rw [← hparts]; rfl
      rw [List.head?_append, Option.or_eq_some_iff] at hhead
      have hc : c = '.' ∨ c = 'e' ∨ c = 'E' := by
        rcases hhead with hc | ⟨_, hc⟩
        · exact Or.inl (hfraction.head c hc)
        · exact Or.inr (hexponent.head c hc)
      exfalso
      rcases hc with rfl | rfl | rfl <;> revert hletter <;> cases base <;> decide

theorem letter_not_digit {base : Base} {letter : Char} (h : letter ∈ base.letters) :
    letter.isDigit = false := by
  cases base <;> simp only [Base.letters, List.mem_cons, List.not_mem_nil, or_false] at h <;>
    rcases h with rfl | rfl <;> rfl

/-- The longest number literal is read where a digit stands. -/
theorem longest_read {c : Char} (rest : List Char) (hdigit : c.isDigit = true) :
    Longest IsNumber (read (c :: rest)).source (c :: rest) := by
  have hleads := (leads_read rest hdigit).2.isPrefix
  unfold read at hleads ⊢
  cases hbased : readBased? (c :: rest) with
  | some literal =>
      rw [hbased] at hleads
      obtain ⟨base, letter, more, htext, hletter, hsource, hdigits⟩ := readBased?_eq_some hbased
      rw [htext] at hleads ⊢
      rw [Option.getD_some, hsource] at hleads ⊢
      refine ⟨.based hletter (longest_takeWhile hdigits).holds, hleads, ?_⟩
      intro other hother hleading
      cases hother with
      | @decimal whole fraction exponent hwhole hfraction hexponent =>
          have hzero : whole = ['0'] := by
            have htake := IsRun.isPrefix_takeWhile hwhole.2
              ((List.prefix_append whole _).trans hleading)
            have hfirst : ('0' :: letter :: more).takeWhile Char.isDigit = ['0'] := by
              simp [letter_not_digit hletter]
            rw [hfirst] at htake
            exact htake.eq_of_length_le (List.length_pos_iff.mpr hwhole.1)
          subst hzero
          have htail := not_tail_of_letter hletter ⟨fraction, exponent, hfraction, hexponent, rfl⟩
            (List.cons_prefix_cons.mp hleading).2
          rw [htail]
          exact Nat.succ_le_succ (Nat.zero_le _)
      | @based base' letter' digits hletter' hdigits' =>
          obtain ⟨_, hrest⟩ := List.cons_prefix_cons.mp hleading
          obtain ⟨rfl, hmore⟩ := List.cons_prefix_cons.mp hrest
          obtain rfl : base = base' := Option.some.inj
            ((Base.ofLetter?_eq_some_iff.mpr hletter).symm.trans
              (Base.ofLetter?_eq_some_iff.mpr hletter'))
          have htake := IsRun.isPrefix_takeWhile hdigits'.2 hmore
          exact Nat.succ_le_succ (Nat.succ_le_succ htake.length_le)
  | none =>
      obtain ⟨⟨whole, tail, hwhole, ⟨fraction, exponent, hfraction, hexponent, rfl⟩, hsource⟩,
        hleads', hlongest⟩ := longest_readDecimal rest hdigit
      rw [Option.getD_none]
      refine ⟨?_, hleads', ?_⟩
      · rw [hsource]
        exact .decimal hwhole hfraction hexponent
      · intro other hother hleading
        cases hother with
        | decimal hwhole' hfraction' hexponent' =>
            exact hlongest _ ⟨_, _, hwhole', ⟨_, _, hfraction', hexponent', rfl⟩, rfl⟩ hleading
        | @based base letter digits hletter hdigits =>
            obtain ⟨behind, hbehind⟩ := hleading
            obtain ⟨value, hread⟩ := readBased?_based hletter hdigits behind
            rw [← hbehind] at hbased
            exact nomatch hbased.symm.trans hread

end NumberLiteral

theorem unescape?_isSome_iff {c : Char} :
    (unescape? c).isSome = true ↔ c ∈ ['n', 't', 'r', '0', '\\', '"', '\x27'] := by
  constructor
  · intro h
    unfold unescape? at h
    split at h <;> first | decide | cases h
  · intro member
    simp only [List.mem_cons, List.not_mem_nil, or_false] at member
    rcases member with rfl | rfl | rfl | rfl | rfl | rfl | rfl <;> rfl

namespace StringBody

/-- A string literal is read up to its closing quote. -/
theorem read_items {items : List Char} (h : StringItems items) (rest : List Char) :
    ∃ parts, read (items ++ '"' :: rest) = ⟨parts, true⟩ ∧
      parts.flatMap StringPart.source = items ∧ ∀ part ∈ parts, part.value?.isSome = true := by
  induction h with
  | nil => exact ⟨[], rfl, rfl, by simp⟩
  | @plain c items hquote hescape hline _ ih =>
      obtain ⟨parts, hread, hsource, hmeant⟩ := ih
      refine ⟨.plain c :: parts, ?_, by simp [hsource, StringPart.source], ?_⟩
      · rw [List.cons_append, read, hread, cons] <;> simp_all
      · exact List.forall_mem_cons.mpr ⟨rfl, hmeant⟩
  | @escape c items hc _ ih =>
      obtain ⟨parts, hread, hsource, hmeant⟩ := ih
      have hline : c ≠ '\n' := by
        rintro rfl
        revert hc
        decide
      refine ⟨.escape c :: parts, ?_, by simp [hsource, StringPart.source], ?_⟩
      · rw [List.cons_append, List.cons_append, read, hread, cons]
        exact hline
      · exact List.forall_mem_cons.mpr ⟨unescape?_isSome_iff.mpr hc, hmeant⟩

/-- What is read up to a closing quote without a meaningless escape is a string literal. -/
theorem items_of_read (text : List Char) (hclosed : (read text).closed = true)
    (hmeant : ∀ part ∈ (read text).parts, part.value?.isSome = true) :
    StringItems ((read text).parts.flatMap StringPart.source) := by
  fun_induction read text with
  | case1 => cases hclosed
  | case2 => exact .nil
  | case3 => cases hclosed
  | case4 => cases hclosed
  | case5 => cases hclosed
  | case6 c rest _ ih =>
      obtain ⟨hc, hrest⟩ := List.forall_mem_cons.mp hmeant
      exact .escape (unescape?_isSome_iff.mp hc) (ih hclosed hrest)
  | case7 c rest hquote hline hescapedLine hlone hescape ih =>
      obtain ⟨hc, hrest⟩ := List.forall_mem_cons.mp hmeant
      refine .plain hquote ?_ hline (ih hclosed hrest)
      rintro rfl
      cases rest with
      | nil => exact hlone rfl rfl
      | cons d rest => exact hescape d rest rfl rfl

end StringBody

/-- A string literal stands behind a quote exactly if what is read there is closed and has a meaning
throughout, and then it is what is read. -/
theorem LexemeClass.string_isPrefix_iff {part rest : List Char} :
    Contains .string part ∧ part <+: '"' :: rest ↔
      (StringBody.read rest).closed = true ∧ (StringBody.read rest).fault? = none ∧
        part = (StringBody.read rest).source := by
  constructor
  · rintro ⟨⟨hitems⟩, hleading⟩
    rename_i items
    obtain ⟨behind, hbehind⟩ := (List.cons_prefix_cons.mp hleading).2
    obtain ⟨parts, hread, hsource, hmeant⟩ := StringBody.read_items hitems behind
    rw [List.append_assoc, List.singleton_append] at hbehind
    rw [hbehind] at hread
    rw [hread]
    refine ⟨rfl, ?_, by simp [StringBody.source, hsource]⟩
    apply List.find?_eq_none.mpr
    intro part member
    rw [Option.isNone_iff_eq_none]
    exact Option.isSome_iff_ne_none.mp (hmeant part member)
  · rintro ⟨hclosed, hfault, rfl⟩
    refine ⟨?_, (StringBody.leads_read rest).isPrefix⟩
    have hmeant : ∀ part ∈ (StringBody.read rest).parts, part.value?.isSome = true := by
      intro part member
      have hnot := List.find?_eq_none.mp hfault part member
      rw [Option.isNone_iff_eq_none] at hnot
      exact Option.isSome_iff_ne_none.mpr hnot
    have hsource : (StringBody.read rest).source =
        '"' :: ((StringBody.read rest).parts.flatMap StringPart.source ++ ['"']) := by
      simp [StringBody.source, hclosed]
    rw [hsource]
    exact .string (StringBody.items_of_read rest hclosed hmeant)

theorem LexemeClass.longest_word {c : Char} (rest : List Char) (h : isWordStart c = true) :
    Longest (Contains .word) ((c :: rest).takeWhile isWordChar) (c :: rest) := by
  refine ⟨?_, List.takeWhile_prefix _, ?_⟩
  · rw [List.takeWhile_cons_of_pos (isWordChar_of_isWordStart h)]
    exact .word h fun d member => List.all_eq_true.mp List.all_takeWhile d member
  · intro other hother hleading
    cases hother with
    | @word d more hd hmore =>
        refine (IsRun.isPrefix_takeWhile ?_ hleading).length_le
        exact List.forall_mem_cons.mpr ⟨isWordChar_of_isWordStart hd, hmore⟩

theorem Lexeme.ofWord_gives (word : List Char) :
    (Lexeme.ofWord word).source = word ∧ LexemeClass.Gives .word word (Lexeme.ofWord word).kind := by
  unfold Lexeme.ofWord Keyword.ofSpelling?
  split
  · rename_i k hk
    have hspelling : k.spelling = String.ofList word := by simpa using List.find?_some hk
    refine ⟨rfl, ?_⟩
    have hword : word = k.spelling.toList := by rw [hspelling, String.toList_ofList]
    rw [hword]
    exact .keyword k
  · rename_i hnone
    refine ⟨rfl, .identifier ?_⟩
    rintro k rfl
    exact absurd (List.find?_eq_none.mp hnone k k.mem_all) (by simp)

/-- Longer spellings stand before shorter ones. -/
theorem Symbol.longestFirst_pairwise :
    Symbol.longestFirst.Pairwise
      fun s t => t.spelling.toList.length ≤ s.spelling.toList.length := by
  decide +kernel

theorem LexemeClass.longest_symbol {text : List Char} {s : Symbol}
    (h : Symbol.atFront? text = some s) : Longest (Contains .symbol) s.spelling.toList text := by
  refine ⟨.symbol s, Symbol.isPrefix_of_atFront? h, ?_⟩
  rintro _ ⟨⟩ hleading
  rename_i other
  obtain ⟨_, before, behind, hsplit, hbefore⟩ := List.find?_eq_some_iff_append.mp h
  have hpairwise := Symbol.longestFirst_pairwise
  have hmember := other.mem_longestFirst
  rw [hsplit] at hpairwise hmember
  rcases List.mem_append.mp hmember with hearlier | hlater
  · have hnot := hbefore other hearlier
    rw [List.isPrefixOf_iff_prefix.mpr hleading] at hnot
    cases hnot
  · rcases List.mem_cons.mp hlater with rfl | hbehind
    · exact Nat.le_refl _
    · exact (List.pairwise_cons.mp (List.pairwise_append.mp hpairwise).2.1).1 other hbehind

theorem LexemeClass.not_symbol {text part : List Char} (h : Symbol.atFront? text = none)
    (hpart : Contains .symbol part) : ¬ part <+: text := by
  cases hpart with
  | symbol s =>
      intro hleading
      have hnot := List.find?_eq_none.mp h s s.mem_longestFirst
      exact hnot (List.isPrefixOf_iff_prefix.mpr hleading)

theorem not_isDigit_of_isWordStart {c : Char} (h : isWordStart c = true) : c.isDigit = false := by
  revert c
  apply forall_char_of_ascii
  · decide +kernel
  · intro c hc _
    rw [Bool.eq_false_iff]
    intro hdigit
    have hhex : Base.hexadecimal.isDigit c = true := by simp [Base.isDigit, hdigit]
    exact absurd (Base.toNat_lt_of_isDigit hhex) (Nat.not_lt.mpr hc)

/-- The class that a first character belongs to. -/
def LexemeClass.ofFirst (c : Char) : LexemeClass :=
  if c = '"' then .string
  else if c.isDigit then .number
  else if isWordStart c then .word
  else .symbol

theorem IsNumber.first {text : List Char} (h : IsNumber text) :
    ∃ c rest, text = c :: rest ∧ c.isDigit = true := by
  cases h with
  | @decimal whole _ _ hwhole =>
      obtain ⟨c, more, rfl⟩ := List.exists_cons_of_ne_nil hwhole.1
      exact ⟨c, _, rfl, hwhole.2 c (by simp)⟩
  | based => exact ⟨_, _, rfl, rfl⟩

/-- The first character tells the classes apart. -/
theorem LexemeClass.Contains.eq_ofFirst {cls : LexemeClass} {part rest : List Char} {c : Char}
    (h : cls.Contains part) (hleading : part <+: c :: rest) : cls = .ofFirst c := by
  cases h with
  | string =>
      obtain ⟨rfl, _⟩ := List.cons_prefix_cons.mp hleading
      rfl
  | number hnumber =>
      obtain ⟨d, more, rfl, hdigit⟩ := hnumber.first
      obtain ⟨rfl, _⟩ := List.cons_prefix_cons.mp hleading
      have hquote : d ≠ '"' := by
        rintro rfl
        cases hdigit
      simp [ofFirst, hquote, hdigit]
  | @word d more hd =>
      obtain ⟨rfl, _⟩ := List.cons_prefix_cons.mp hleading
      have hquote : d ≠ '"' := by
        rintro rfl
        cases hd
      have hstart : isWordStart d = true := hd
      simp [ofFirst, hquote, not_isDigit_of_isWordStart hstart, hstart]
  | symbol s =>
      have hfirst : ∀ s : Symbol, ∃ d more, s.spelling.toList = d :: more ∧ ofFirst d = .symbol := by
        intro s
        cases s <;> exact ⟨_, _, rfl, by decide⟩
      obtain ⟨d, more, hspelling, hclass⟩ := hfirst s
      rw [hspelling] at hleading
      obtain ⟨rfl, _⟩ := List.cons_prefix_cons.mp hleading
      exact hclass.symm

/-- The lexeme is the longest of its class that the text starts with, or the text starts with none
and the lexeme is a flaw: of a string if a quote stands there, and else an unknown token. -/
def Lexeme.Judged (c : Char) (rest : List Char) (l : Lexeme) : Prop :=
  Longest (LexemeClass.ofFirst c).Contains l.source (c :: rest) ∧
      (LexemeClass.ofFirst c).Gives l.source l.kind ∨
    (∀ part, (LexemeClass.ofFirst c).Contains part → ¬ part <+: c :: rest) ∧
      if c = '"' then l.kind = .flaw .unclosedString ∨ l.kind = .flaw .invalidEscape
      else l.kind = .flaw .unknownToken

theorem Lexeme.judged_ofString (rest : List Char) :
    (Lexeme.ofString (.read rest)).Judged '"' rest := by
  have hiff {part : List Char} := @LexemeClass.string_isPrefix_iff part rest
  generalize StringBody.read rest = body at hiff
  cases hfault : body.fault? with
  | some escape =>
      refine Or.inr ⟨fun part hpart hleading => ?_, Or.inr ?_⟩
      · have hnone := (hiff.mp ⟨hpart, hleading⟩).2.1
        exact nomatch hfault.symm.trans hnone
      · simp [Lexeme.ofString, hfault]
  | none =>
      by_cases hclosed : body.closed = true
      · have hlexeme : Lexeme.ofString body =
            .whole .string (.text (String.ofList body.value)) body.source := by
          simp [Lexeme.ofString, hfault, hclosed]
        obtain ⟨hcontains, hleading⟩ := hiff.mpr ⟨hclosed, hfault, rfl⟩
        rw [hlexeme]
        refine Or.inl ⟨⟨hcontains, hleading, fun part hpart hother => ?_⟩, .string⟩
        rw [(hiff.mp ⟨hpart, hother⟩).2.2]
        exact Nat.le_refl _
      · refine Or.inr ⟨fun part hpart hleading => ?_, Or.inl ?_⟩
        · exact hclosed (hiff.mp ⟨hpart, hleading⟩).1
        · simp [Lexeme.ofString, hfault, hclosed, Lexeme.verbatim, Lexeme.whole]

/-- Every lexeme is as long as it can be, whatever it starts with and whatever follows. -/
theorem Lexeme.scan_judged (c : Char) (rest : List Char) :
    (Lexeme.scan (c :: rest)).Judged c rest := by
  rw [Lexeme.scan]
  split
  · rename_i hquote
    subst hquote
    exact Lexeme.judged_ofString rest
  rename_i hquote
  split
  · rename_i hdigit
    have hclass : LexemeClass.ofFirst c = .number := by simp [LexemeClass.ofFirst, hquote, hdigit]
    obtain ⟨hnumber, hleading, hlongest⟩ := NumberLiteral.longest_read rest hdigit
    left
    rw [hclass]
    refine ⟨⟨.number hnumber, hleading, fun other hother => ?_⟩, .number⟩
    cases hother with
    | number hother => exact hlongest other hother
  rename_i hdigit
  split
  · rename_i hword
    have hclass : LexemeClass.ofFirst c = .word := by
      simp [LexemeClass.ofFirst, hquote, hdigit, hword]
    obtain ⟨hsource, hgives⟩ := Lexeme.ofWord_gives ((c :: rest).takeWhile isWordChar)
    left
    rw [hclass, hsource]
    exact ⟨LexemeClass.longest_word rest hword, hgives⟩
  rename_i hword
  have hclass : LexemeClass.ofFirst c = .symbol := by
    simp [LexemeClass.ofFirst, hquote, hdigit, hword]
  unfold Lexeme.Judged
  rw [hclass, if_neg hquote]
  split
  · rename_i s hsymbol
    exact Or.inl ⟨LexemeClass.longest_symbol hsymbol, .symbol s⟩
  · rename_i hnone
    exact Or.inr ⟨fun part hpart => LexemeClass.not_symbol hnone hpart, rfl⟩

theorem LexemeClass.Gives.not_flaw {cls : LexemeClass} {text : List Char} {kind : Kind}
    (h : cls.Gives text kind) (f : Flaw) : kind ≠ .flaw f := by
  cases h <;> simp

/-- Each lexeme that the text falls into is what is scanned at its place. -/
theorem Lexed.scan_eq {text rest : List Char} {p : Position} {lexemes : List PlacedLexeme}
    (h : Lexed p rest lexemes) (hrest : text.drop p.offset = rest) :
    ∀ l ∈ lexemes, Lexeme.scan (text.drop l.start.offset) = l.lexeme ∧ l.lexeme.Formed ∧
      l.lexeme.source <+: text.drop l.start.offset := by
  induction h with
  | done => simp
  | @lexeme p gap rest l more _ _ hscan hformed _ ih =>
      have hat : text.drop (p.after gap).offset = l.source ++ rest := drop_offset_after hrest
      have hbehind : text.drop ((p.after gap).after l.source).offset = rest := drop_offset_after hat
      refine List.forall_mem_cons.mpr ⟨⟨?_, hformed, rest, hat.symm⟩, ih hbehind⟩
      rw [hat, hscan]

/-- A token that is no meaningless escape covers its lexeme. -/
theorem PlacedLexeme.slice_token {text : List Char} {l : PlacedLexeme} (hformed : l.lexeme.Formed)
    (hleading : l.lexeme.source <+: text.drop l.start.offset)
    (hkind : l.lexeme.kind ≠ .flaw .invalidEscape) :
    l.token.span.start = l.start.offset ∧ l.token.span.slice text = l.lexeme.source := by
  obtain ⟨hskip, hwidth⟩ := hformed.covered hkind
  obtain ⟨rest, hrest⟩ := hleading
  have hstart : l.token.span.start = l.start.offset := by
    simp [PlacedLexeme.token, Lexeme.token, hskip]
  have hlength : l.token.span.length = l.lexeme.source.length := by
    simp [PlacedLexeme.token, Lexeme.token, Span.length, hskip, hwidth]
  refine ⟨hstart, ?_⟩
  rw [Span.slice, hstart, hlength, ← hrest, List.take_left]

/-- Every token takes as much as it can. If the text at its lexeme starts with any text of a class,
that class is the only one, and the token is of the kind that the longest such text makes, and covers
it. The token is unknown exactly if the text there starts with no text of any class and with no
quote, and a flaw of a string exactly if it starts with a quote and with no string literal. -/
theorem tokenize_takes_longest (source : String) (l : PlacedLexeme) (h : l ∈ lexemesOf source) :
    let text := source.toList.drop l.start.offset
    (∀ (cls : LexemeClass) (part : List Char), cls.Contains part → part <+: text →
      (∀ (other : LexemeClass) (part : List Char), other.Contains part → part <+: text →
        other = cls) ∧
      ∃ longest, Longest cls.Contains longest text ∧ cls.Gives longest l.token.kind ∧
        l.token.span.start = l.start.offset ∧ l.token.span.slice source.toList = longest) ∧
    (l.token.kind = .flaw .unknownToken ↔
      (∀ (cls : LexemeClass) (part : List Char), cls.Contains part → ¬ part <+: text) ∧
        text.head? ≠ some '"') ∧
    (l.token.kind = .flaw .unclosedString ∨ l.token.kind = .flaw .invalidEscape ↔
      text.head? = some '"' ∧ ∀ part, LexemeClass.Contains .string part → ¬ part <+: text) := by
  intro text
  obtain ⟨hscan, hformed, hleading⟩ :=
    (lexed_placedLexemes {} source.toList).scan_eq rfl l h
  change Lexeme.scan text = l.lexeme at hscan
  change l.lexeme.source <+: text at hleading
  have hslice := l.slice_token hformed hleading
  obtain ⟨c, rest, htext⟩ : ∃ c rest, text = c :: rest := by
    apply List.exists_cons_of_ne_nil
    intro hempty
    rw [hempty, List.prefix_nil] at hleading
    exact hformed.nonempty hleading
  rw [htext] at hscan ⊢
  have hjudged := Lexeme.scan_judged c rest
  rw [hscan] at hjudged
  change _ ∧ (l.lexeme.kind = _ ↔ _) ∧ (l.lexeme.kind = _ ∨ l.lexeme.kind = _ ↔ _)
  rcases hjudged with ⟨hlongest, hgives⟩ | ⟨hnone, hkind⟩
  · refine ⟨fun cls part hpart hpartLeads => ?_, ?_, ?_⟩
    · obtain rfl := hpart.eq_ofFirst hpartLeads
      exact ⟨fun other part hother hleads => hother.eq_ofFirst hleads, l.lexeme.source, hlongest,
        hgives, hslice (hgives.not_flaw _)⟩
    · refine iff_of_false (hgives.not_flaw _) fun hno => ?_
      exact hno.1 _ _ hlongest.holds hlongest.isPrefix
    · refine iff_of_false ?_ ?_
      · rintro (hflaw | hflaw)
        · exact hgives.not_flaw _ hflaw
        · exact hgives.not_flaw _ hflaw
      · rintro ⟨hquote, hno⟩
        obtain rfl := Option.some.inj hquote
        exact hno _ hlongest.holds hlongest.isPrefix
  · have hnoClass (cls : LexemeClass) (part : List Char) (hpart : cls.Contains part) :
        ¬ part <+: c :: rest := by
      intro hleads
      obtain rfl := hpart.eq_ofFirst hleads
      exact hnone part hpart hleads
    refine ⟨fun cls part hpart hleads => absurd hleads (hnoClass cls part hpart), ?_, ?_⟩
    · split at hkind
      · rename_i hquote
        refine iff_of_false ?_ fun hno => hno.2 (by rw [hquote]; rfl)
        rcases hkind with hkind | hkind <;> rw [hkind] <;> decide
      · rename_i hquote
        exact iff_of_true hkind ⟨hnoClass, by simpa using hquote⟩
    · split at hkind
      · rename_i hquote
        exact iff_of_true hkind ⟨by rw [hquote]; rfl, hnoClass .string⟩
      · rename_i hquote
        refine iff_of_false ?_ fun hstring => hquote (Option.some.inj hstring.1)
        rw [hkind]
        decide

/-- In `2e+` the mark and the sign have no digits behind them, so the number is `2` alone. -/
theorem tokenize_takes_longest_mark :
    ∃ l ∈ lexemesOf "2e+", l.token.kind = .number ∧ l.token.span.slice "2e+".toList = ['2'] ∧
      Longest (LexemeClass.Contains .number) ['2'] "2e+".toList := by
  have hne : lexemesOf "2e+" ≠ [] := by decide
  let l := (lexemesOf "2e+").head hne
  have hmember : l ∈ lexemesOf "2e+" := List.head_mem hne
  have htwo : LexemeClass.Contains .number ['2'] :=
    .number (@IsNumber.decimal ['2'] [] [] ⟨by simp, by simp⟩ .none .none)
  obtain ⟨_, longest, hlongest, _, _, hslice⟩ :=
    (tokenize_takes_longest "2e+" l hmember).1 .number ['2'] htwo ⟨['e', '+'], rfl⟩
  have hshown : l.token.span.slice "2e+".toList = ['2'] := rfl
  obtain rfl : longest = ['2'] := hslice.symm.trans hshown
  exact ⟨l, hmember, rfl, hslice, hlongest⟩

end Glass
