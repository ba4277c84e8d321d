import Mathlib.Data.List.TakeWhile
import Glass.Proofs.LongestLexeme
import Glass.Text.Blank

/-!
What a lexeme owes to the text behind it. Whitespace stands in no lexeme but a string, so a text that
is cut off, or broken by whitespace, behind a lexeme or anywhere further on offers the scanner nothing
that it could take instead. A string that is not closed goes up to the end of its line, and is the
same if the text ends there. In particular each lexeme is scanned from its own characters alone.
-/

namespace Glass

/-- Where `rest` stood the text ends, or, if `rest` went on in the same line, whitespace follows. -/
inductive Breaks (rest : List Char) : List Char → Prop where
  | off : Breaks rest []
  | blank {c d : Char} {tail : List Char} :
      rest.head? = some d → d ≠ '\n' → isWhitespace c = true → Breaks rest (c :: tail)

theorem Breaks.head_blank {rest tail : List Char} (h : Breaks rest tail) :
    ∀ c, tail.head? = some c → isWhitespace c = true := by
  cases h with
  | off => nofun
  | blank _ _ hblank =>
      intro c hc
      obtain rfl := Option.some.inj hc
      exact hblank

/-- Whitespace is blank, but not every blank is whitespace. -/
theorem not_isWhitespace_of_not_blank {c : Char} (h : isBlank c = false) : isWhitespace c = false := by
  rw [Bool.eq_false_iff]
  intro hspace
  have hmember := mem_of_isWhitespace hspace
  simp only [List.mem_cons, List.not_mem_nil, or_false] at hmember
  rcases hmember with rfl | rfl | rfl | rfl <;> cases h

theorem not_blank_of_isWordChar {c : Char} (h : isWordChar c = true) : isBlank c = false := by
  have hval : c.val.toNat = c.toNat := rfl
  have hword : 0x20 < c.toNat ∧ c.toNat < 0x7f := by
    unfold isWordChar Char.isAlphanum Char.isAlpha Char.isUpper Char.isLower Char.isDigit at h
    simp only [Bool.or_eq_true, Bool.and_eq_true, decide_eq_true_eq, beq_iff_eq, ge_iff_le,
      UInt32.le_iff_toNat_le, Char.reduceVal, UInt32.reduceToNat, hval] at h
    rcases h with h | rfl
    · omega
    · decide
  simp only [isBlank, blankRanges, List.any_cons, List.any_nil, Bool.or_eq_false_iff,
    Bool.and_eq_false_iff, decide_eq_false_iff_not, and_true]
  omega

theorem isWordChar_of_isDigit {c : Char} (h : c.isDigit = true) : isWordChar c = true := by
  simp [isWordChar, Char.isAlphanum, h]

theorem not_blank_of_isDigit {c : Char} (h : c.isDigit = true) : isBlank c = false :=
  not_blank_of_isWordChar (isWordChar_of_isDigit h)

section Blanks

/-- No character of the text is whitespace. -/
def Solid (text : List Char) : Prop := ∀ c ∈ text, isWhitespace c = false

theorem Solid.nil : Solid [] := List.forall_mem_nil _

theorem Solid.cons {c : Char} {text : List Char} (hc : isWhitespace c = false) (h : Solid text) :
    Solid (c :: text) :=
  List.forall_mem_cons.mpr ⟨hc, h⟩

/-- No character of the text is blank. -/
def Visible (text : List Char) : Prop := ∀ c ∈ text, isBlank c = false

theorem Visible.solid {text : List Char} (h : Visible text) : Solid text :=
  fun c member => not_isWhitespace_of_not_blank (h c member)

theorem Visible.nil : Visible [] := List.forall_mem_nil _

theorem Visible.cons {c : Char} {text : List Char} (hc : isBlank c = false) (h : Visible text) :
    Visible (c :: text) :=
  List.forall_mem_cons.mpr ⟨hc, h⟩

theorem Visible.append {first second : List Char} (hfirst : Visible first)
    (hsecond : Visible second) : Visible (first ++ second) :=
  List.forall_mem_append.mpr ⟨hfirst, hsecond⟩

theorem Visible.of_all {text : List Char} (h : text.all (fun c => !isBlank c) = true) :
    Visible text := by
  simpa only [Visible, List.all_eq_true, Bool.not_eq_true'] using h

theorem IsRun.visible {p : Char → Bool} {text : List Char} (h : IsRun p text)
    (hp : ∀ c, p c = true → isBlank c = false) : Visible text :=
  fun c member => hp c (h.2 c member)

theorem IsFraction.visible {text : List Char} (h : IsFraction text) : Visible text := by
  cases h with
  | none => exact .nil
  | places hdigits => exact .cons rfl (hdigits.visible fun _ => not_blank_of_isDigit)

theorem IsExponent.visible {text : List Char} (h : IsExponent text) : Visible text := by
  cases h with
  | none => exact .nil
  | @power mark sign digits hmark hsign hdigits =>
      have hmark' : isBlank mark = false := by
        simp only [List.mem_cons, List.not_mem_nil, or_false] at hmark
        rcases hmark with rfl | rfl <;> rfl
      have hsign' : Visible sign := by
        simp only [List.mem_cons, List.not_mem_nil, or_false] at hsign
        rcases hsign with rfl | rfl | rfl
        · exact .nil
        · exact .cons rfl .nil
        · exact .cons rfl .nil
      exact .cons hmark' (hsign'.append (hdigits.visible fun _ => not_blank_of_isDigit))

theorem IsNumber.visible {text : List Char} (h : IsNumber text) : Visible text := by
  cases h with
  | decimal hwhole hfraction hexponent =>
      exact (hwhole.visible fun _ => not_blank_of_isDigit).append
        (hfraction.visible.append hexponent.visible)
  | @based base letter digits hletter hdigits =>
      have hletters : Visible base.letters := .of_all (by cases base <;> rfl)
      have hdigit : Visible base.digits := .of_all (by cases base <;> rfl)
      exact .cons rfl (.cons (hletters letter hletter) (hdigits.visible fun c hc =>
        hdigit c (by simpa using hc)))

/-- Blanks stand in strings only. -/
theorem LexemeClass.Contains.visible {cls : LexemeClass} {part : List Char} (h : cls.Contains part)
    (hclass : cls ≠ .string) : Visible part := by
  cases h with
  | string => exact absurd rfl hclass
  | number hnumber => exact hnumber.visible
  | @word c rest hc hrest =>
      exact .cons (not_blank_of_isWordChar (isWordChar_of_isWordStart hc))
        fun d member => not_blank_of_isWordChar (hrest d member)
  | symbol s => exact .of_all (by cases s <;> rfl)

theorem Solid.isPrefix_front {part front tail : List Char} (h : Solid part)
    (htail : ∀ c, tail.head? = some c → isWhitespace c = true) (hleading : part <+: front ++ tail) :
    part <+: front := by
  rcases List.prefix_or_prefix_of_prefix hleading (List.prefix_append front tail) with hle | hle
  · exact hle
  · obtain ⟨beyond, rfl⟩ := hle
    cases beyond with
    | nil => simp
    | cons c beyond =>
        obtain ⟨behind, hbehind⟩ := (List.prefix_append_right_inj front).mp hleading
        have hblank := htail c (by rw [← hbehind]; rfl)
        rw [h c (by simp)] at hblank
        cases hblank

/-- So it stands in the text just as well if the text goes on in another way there. -/
theorem Solid.isPrefix_unbroken {part own front tail : List Char} (h : Solid part)
    (htail : ∀ c, tail.head? = some c → isWhitespace c = true)
    (hleading : part <+: own ++ (front ++ tail)) (rest : List Char) :
    part <+: own ++ (front ++ rest) := by
  rw [← List.append_assoc] at hleading ⊢
  exact (h.isPrefix_front htail hleading).trans (List.prefix_append _ rest)

end Blanks

theorem Longest.unique {P : List Char → Prop} {part other text : List Char}
    (h : Longest P part text) (h' : Longest P other text) : part = other := by
  have hle := h.length_le other h'.holds h'.isPrefix
  have hge := h'.length_le part h.holds h.isPrefix
  exact (List.prefix_of_prefix_length_le h.isPrefix h'.isPrefix hge).eq_of_length_le hle

/-- What is longest in a text is so in a text that is broken behind it. -/
theorem Longest.broken {P : List Char → Prop} {part front rest tail : List Char}
    (h : Longest P part (part ++ (front ++ rest))) (hsolid : ∀ other, P other → Solid other)
    (htail : ∀ c, tail.head? = some c → isWhitespace c = true) :
    Longest P part (part ++ (front ++ tail)) := by
  refine ⟨h.holds, List.prefix_append part _, fun other hother hleading => ?_⟩
  exact h.length_le other hother ((hsolid other hother).isPrefix_unbroken htail hleading rest)

namespace NumberLiteral

theorem readBased?_source {text : List Char} {literal : NumberLiteral}
    (h : readBased? text = some literal) : readBased? literal.source = some literal := by
  unfold readBased? at h
  split at h
  · rename_i letter rest
    split at h
    · cases h
    · rename_i base hbase
      dsimp only at h
      split at h
      · cases h
      · rename_i hdigits
        obtain rfl := Option.some.inj h
        simp only [readBased?, hbase, List.takeWhile_idem]
        rw [if_neg hdigits]
  · cases h

/-- A text that starts with no literal in another base does not do so when it is cut off. -/
theorem readBased?_eq_none_of_isPrefix {part text : List Char} (h : readBased? text = none)
    (hleading : part <+: text) : readBased? part = none := by
  rw [Option.eq_none_iff_forall_ne_some]
  intro literal hread
  obtain ⟨base, letter, rest, rfl, hletter, _, hdigits⟩ := readBased?_eq_some hread
  obtain ⟨behind, rfl⟩ := hleading
  have hsplit := List.takeWhile_append_dropWhile (p := (base.digits.contains ·)) (l := rest)
  obtain ⟨value, hvalue⟩ := readBased?_based hletter (longest_takeWhile hdigits).holds
    (rest.dropWhile (base.digits.contains ·) ++ behind)
  rw [← List.append_assoc, hsplit] at hvalue
  exact nomatch h.symm.trans hvalue

section Parts
variable {whole fraction exponent : List Char}

theorem fractionPart_append (hfraction : IsFraction fraction) (hexponent : IsExponent exponent) :
    fractionPart (fraction ++ exponent) = fraction := by
  cases hfraction with
  | none =>
      cases exponent with
      | nil => rfl
      | cons mark more => rcases hexponent.head mark rfl with rfl | rfl <;> rfl
  | @places digits hdigits =>
      have htake : (digits ++ exponent).takeWhile Char.isDigit = digits :=
        takeWhile_append_eq hdigits.2 hexponent.head_not_digit
      rw [List.cons_append, fractionPart_point (by rw [htake]; exact hdigits.1), htake]

theorem exponentPart_self (hexponent : IsExponent exponent) : exponentPart exponent = exponent := by
  cases hexponent with
  | none => rfl
  | @power mark sign digits hmark hsign hdigits =>
      have hpart := exponentPart_mark (by simpa using hmark) hsign hdigits []
      have htake : digits.takeWhile Char.isDigit = digits := List.takeWhile_eq_self_iff.mpr hdigits.2
      rw [List.append_nil, htake] at hpart
      exact hpart

/-- A decimal numeral that stands alone is read part by part. -/
theorem readDecimal_parts (hwhole : IsRun Char.isDigit whole) (hfraction : IsFraction fraction)
    (hexponent : IsExponent exponent) :
    readDecimal (whole ++ fraction ++ exponent) =
      ⟨whole ++ fraction ++ exponent,
        (⟨ofDigits 10 (whole ++ fraction.drop 1),
          exponentValue exponent - (fraction.drop 1).length⟩ : Decimal).toFloat⟩ := by
  have htail : IsTail (fraction ++ exponent) := ⟨_, _, hfraction, hexponent, rfl⟩
  have htake : (whole ++ (fraction ++ exponent)).takeWhile Char.isDigit = whole :=
    takeWhile_append_eq hwhole.2 htail.head_not_digit
  have hbehind : (whole ++ (fraction ++ exponent)).drop (whole.length + fraction.length) =
      exponent := by
    rw [← List.append_assoc, ← List.length_append, List.drop_left]
  rw [List.append_assoc, readDecimal, htake, List.drop_left,
    fractionPart_append hfraction hexponent, hbehind, exponentPart_self hexponent, List.append_assoc]

end Parts

/-- A literal is read from its own characters alone. -/
theorem read_source {c : Char} (rest : List Char) (hdigit : c.isDigit = true) :
    read (read (c :: rest)).source = read (c :: rest) := by
  unfold read
  cases hbased : readBased? (c :: rest) with
  | some literal => rw [Option.getD_some, readBased?_source hbased, Option.getD_some]
  | none =>
      rw [Option.getD_none,
        readBased?_eq_none_of_isPrefix hbased (leads_readDecimal (c :: rest)).isPrefix,
        Option.getD_none]
      have hwhole : IsRun Char.isDigit ((c :: rest).takeWhile Char.isDigit) :=
        (longest_takeWhile (by simp [hdigit])).holds
      exact readDecimal_parts hwhole (longest_fractionPart _).holds (longest_exponentPart _).holds

end NumberLiteral

/-- The text ends, or its line does. -/
inductive EndsLine : List Char → Prop where
  | off : EndsLine []
  | newline (rest : List Char) : EndsLine ('\n' :: rest)

/-- A literal ends with its line at the latest, and is read alike whatever follows it; if it is not
closed, the text has to end there or its line. -/
theorem StringBody.read_front (text : List Char) :
    ∃ front rest, text = front ++ rest ∧ (read text).source = '"' :: front ∧
      ((read text).closed = false → EndsLine rest) ∧
      ∀ tail, ((read text).closed = false → EndsLine tail) → read (front ++ tail) = read text := by
  unfold StringBody.source
  fun_induction StringBody.read text with
  | case1 => exact ⟨[], [], rfl, rfl, fun _ => .off, fun _ htail => by cases htail rfl <;> rfl⟩
  | case2 rest =>
      exact ⟨['"'], rest, rfl, rfl, fun hclosed => Bool.noConfusion hclosed, fun _ _ => rfl⟩
  | case3 =>
      exact ⟨[], _, rfl, rfl, fun _ => .newline _, fun _ htail => by cases htail rfl <;> rfl⟩
  | case4 =>
      exact ⟨['\\'], _, rfl, rfl, fun _ => .newline _, fun _ htail => by cases htail rfl <;> rfl⟩
  | case5 => exact ⟨['\\'], [], rfl, rfl, fun _ => .off, fun _ htail => by cases htail rfl <;> rfl⟩
  | case6 c rest hnewline ih =>
      obtain ⟨front, behind, rfl, hsource, hopen, hread⟩ := ih
      refine ⟨'\\' :: c :: front, behind, rfl, ?_, hopen, fun tail htail => ?_⟩
      · exact congrArg (fun text => '"' :: '\\' :: c :: text) (List.cons.inj hsource).2
      · rw [List.cons_append, List.cons_append, read, hread tail htail]
        exact hnewline
  | case7 c rest hquote hnewline _ hlone hescape ih =>
      obtain ⟨front, behind, rfl, hsource, hopen, hread⟩ := ih
      have hslash : c ≠ '\\' := by
        rintro rfl
        cases hfront : front ++ behind with
        | nil => exact hlone rfl hfront
        | cons d more => exact hescape d more rfl hfront
      refine ⟨c :: front, behind, rfl, ?_, hopen, fun tail htail => ?_⟩
      · exact congrArg (fun text => '"' :: c :: text) (List.cons.inj hsource).2
      · rw [List.cons_append, read, hread tail htail] <;> simp_all

namespace Lexeme

theorem source_ofWord (word : List Char) : (ofWord word).source = word := (ofWord_gives word).1

theorem source_of_unknown {c : Char} {rest : List Char} (hquote : c ≠ '"')
    (h : (scan (c :: rest)).kind = .flaw .unknownToken) : (scan (c :: rest)).source = [c] := by
  rw [scan, if_neg hquote] at h ⊢
  split at h
  · cases h
  · rename_i hdigit
    rw [if_neg hdigit]
    split at h
    · exact absurd h ((ofWord_gives _).2.not_flaw _)
    · rename_i hword
      rw [if_neg hword]
      cases hsymbol : Symbol.atFront? (c :: rest) with
      | some s =>
          rw [hsymbol] at h
          cases h
      | none => rfl

/-- A string that the text is broken behind is the same string. -/
theorem scan_string_broken {l : Lexeme} {more front rest tail : List Char}
    (hscan : scan ('"' :: more) = l) (htext : '"' :: more = l.source ++ (front ++ rest))
    (hbreaks : Breaks rest tail) : scan (l.source ++ (front ++ tail)) = l := by
  obtain ⟨body, behind, hmore, hsource, hopen, hread⟩ := StringBody.read_front more
  rw [scan, if_pos rfl] at hscan
  have hself : l.source = '"' :: body := by rw [← hscan, source_ofString, hsource]
  rw [hself, List.cons_append, List.cons.injEq, hmore, List.append_cancel_left_eq] at htext
  rw [hself, List.cons_append, scan, if_pos rfl, hread, hscan]
  intro hclosed
  have hends := hopen hclosed
  rw [htext.2] at hends
  -- An open string stands at the end of its line, so that nothing but the end can break it.
  cases front with
  | nil =>
      cases hbreaks with
      | off => exact .off
      | blank hrest hline _ =>
          cases hends with
          | off => cases hrest
          | newline => exact absurd (Option.some.inj hrest).symm hline
  | cons c front =>
      cases hends with
      | newline => exact .newline _

/-- Outside strings, what is scanned in front of a break is as long as it was. -/
theorem source_broken {c : Char} {l : Lexeme} {more front rest tail : List Char}
    (hscan : scan (c :: more) = l) (htext : c :: more = l.source ++ (front ++ rest))
    (hnonempty : l.source ≠ []) (hquote : c ≠ '"')
    (htail : ∀ c, tail.head? = some c → isWhitespace c = true) :
    (scan (l.source ++ (front ++ tail))).source = l.source := by
  obtain ⟨d, own, hown⟩ := List.exists_cons_of_ne_nil hnonempty
  obtain rfl : c = d := by
    rw [hown] at htext
    exact (List.cons.inj htext).1
  have hclass : LexemeClass.ofFirst c ≠ .string := by
    unfold LexemeClass.ofFirst
    rw [if_neg hquote]
    split
    · decide
    · split <;> decide
  have hsolid : ∀ other, (LexemeClass.ofFirst c).Contains other → Solid other :=
    fun other hother => (hother.visible hclass).solid
  have hold := scan_judged c more
  have hnew := scan_judged c (own ++ (front ++ tail))
  rw [← List.cons_append, ← hown] at hnew
  rw [hscan] at hold
  unfold Judged at hold hnew
  rw [if_neg hquote] at hold hnew
  rw [htext] at hold
  rw [← List.cons_append, ← hown] at hnew
  rcases hold with ⟨hlongest, _⟩ | ⟨hnone, hkind⟩
  · have hlongest' := hlongest.broken hsolid htail
    rcases hnew with ⟨hnew, _⟩ | ⟨hnone, _⟩
    · exact hnew.unique hlongest'
    · exact absurd hlongest'.isPrefix (hnone _ hlongest'.holds)
  · have hunknown : l.source = [c] := by
      rw [← hscan]
      exact source_of_unknown hquote (by rw [hscan, hkind])
    rcases hnew with ⟨hnew, _⟩ | ⟨_, hkind'⟩
    · have hleading := (hsolid _ hnew.holds).isPrefix_unbroken htail hnew.isPrefix rest
      exact absurd hleading (hnone _ hnew.holds)
    · rw [hunknown, List.singleton_append] at hkind' ⊢
      exact source_of_unknown hquote hkind'

/-- A lexeme is scanned from its own characters alone. -/
theorem scan_source {c : Char} (rest : List Char) :
    scan (scan (c :: rest)).source = scan (c :: rest) := by
  by_cases hquote : c = '"'
  · subst hquote
    obtain ⟨body, behind, hrest, hsource, _, hread⟩ := StringBody.read_front rest
    have hself : (scan ('"' :: rest)).source = '"' :: body := by
      rw [scan, if_pos rfl, source_ofString, hsource]
    have hbody := hread [] fun _ => .off
    rw [List.append_nil] at hbody
    rw [hself, scan, if_pos rfl, hbody, scan, if_pos rfl]
  rw [scan, if_neg hquote]
  split
  · rename_i hdigit
    obtain ⟨hne, hleading⟩ := NumberLiteral.leads_read rest hdigit
    have hread := NumberLiteral.read_source rest hdigit
    obtain ⟨d, more, hsource⟩ := List.exists_cons_of_ne_nil hne
    obtain ⟨rfl, _⟩ := List.cons_prefix_cons.mp (hsource ▸ hleading.isPrefix)
    dsimp only [whole]
    rw [hsource] at hread ⊢
    rw [scan, if_neg hquote, if_pos hdigit, hread]
    dsimp only [whole]
    rw [hsource]
  rename_i hdigit
  split
  · rename_i hword
    rw [source_ofWord, List.takeWhile_cons_of_pos (isWordChar_of_isWordStart hword), scan,
      if_neg hquote, if_neg hdigit, if_pos hword,
      List.takeWhile_cons_of_pos (isWordChar_of_isWordStart hword), List.takeWhile_idem]
  rename_i hword
  split
  · rename_i s _
    cases s <;> rfl
  · rename_i hnone
    have halone : Symbol.atFront? [c] = none := by
      apply List.find?_eq_none.mpr
      intro s member hleading
      refine List.find?_eq_none.mp hnone s member ?_
      rw [List.isPrefixOf_iff_prefix] at hleading ⊢
      exact hleading.trans (by simp)
    dsimp only [verbatim, whole]
    rw [scan, if_neg hquote, if_neg hdigit, if_neg hword, halone]
    rfl

/-- A lexeme stays the same if the text is broken behind it or anywhere further on. -/
theorem scan_broken {l : Lexeme} {front rest tail : List Char}
    (hscan : scan (l.source ++ (front ++ rest)) = l) (hnonempty : l.source ≠ [])
    (hbreaks : Breaks rest tail) : scan (l.source ++ (front ++ tail)) = l := by
  obtain ⟨c, own, hown⟩ := List.exists_cons_of_ne_nil hnonempty
  have htext : c :: (own ++ (front ++ rest)) = l.source ++ (front ++ rest) := by rw [hown]; rfl
  have hnew : c :: (own ++ (front ++ tail)) = l.source ++ (front ++ tail) := by rw [hown]; rfl
  rw [← htext] at hscan
  by_cases hquote : c = '"'
  · subst hquote
    exact scan_string_broken hscan htext hbreaks
  · have hsource := source_broken hscan htext hnonempty hquote hbreaks.head_blank
    rw [← hnew] at hsource ⊢
    rw [← scan_source, hsource, ← hscan, scan_source]

end Lexeme

end Glass
