import Glass.Proofs.ScannerPlaces
import Glass.Proofs.SpacedWords

/-!
What is scanned where a quote stands. Behind the quote the text falls into parts in one way only, up
to a bare quote, a line feed or the end, and the scanner moves exactly so far. The token is the first
part without a meaning if there is one, whether or not the literal is closed; else the text that the
parts stand for; and without a closing quote the literal as far as it goes. An escaped text between
quotes is therefore read as that text.
-/

namespace Glass

/-- The text behind an opening quote falls into these parts. It stops behind a bare quote and is
then closed, or else before a line feed or at the end; `behind` is what follows. -/
inductive FallsInto : (text : List Char) → (parts : List StringPart) → (closed : Bool) →
    (behind : List Char) → Prop where
  | quote (behind : List Char) : FallsInto ('"' :: behind) [] true behind
  | line (behind : List Char) : FallsInto ('\n' :: behind) [] false ('\n' :: behind)
  | finish : FallsInto [] [] false []
  | escape {c : Char} {rest behind : List Char} {parts : List StringPart} {closed : Bool} :
      c ≠ '\n' → FallsInto rest parts closed behind →
      FallsInto ('\\' :: c :: rest) (.escape c :: parts) closed behind
  | loneBackslash {rest behind : List Char} {parts : List StringPart} {closed : Bool} :
      (∀ c, rest.head? = some c → c = '\n') → FallsInto rest parts closed behind →
      FallsInto ('\\' :: rest) (.loneBackslash :: parts) closed behind
  | plain {c : Char} {rest behind : List Char} {parts : List StringPart} {closed : Bool} :
      c ∉ ['"', '\\', '\n'] → FallsInto rest parts closed behind →
      FallsInto (c :: rest) (.plain c :: parts) closed behind

/-- What a part of a literal stands for: a plain character for itself, and seven escapes. -/
inductive StringPart.StandsFor : (part : StringPart) → (c : Char) → Prop where
  | plain (c : Char) : StandsFor (.plain c) c
  | lineFeed : StandsFor (.escape 'n') '\n'
  | tab : StandsFor (.escape 't') '\t'
  | carriageReturn : StandsFor (.escape 'r') '\r'
  | null : StandsFor (.escape '0') '\x00'
  | backslash : StandsFor (.escape '\\') '\\'
  | quote : StandsFor (.escape '"') '"'
  | apostrophe : StandsFor (.escape '\x27') '\x27'

/-- The part stands for a character. -/
def StringPart.HasMeaning (part : StringPart) : Prop := ∃ c, part.StandsFor c

/-- The parts between the quotes, with the closing quote if there is one. -/
def partsText (parts : List StringPart) (closed : Bool) : List Char :=
  parts.flatMap StringPart.source ++ if closed then ['"'] else []

namespace StringBody

theorem fallsInto_read (text : List Char) :
    ∃ behind, FallsInto text (read text).parts (read text).closed behind := by
  fun_induction read text with
  | case1 => exact ⟨[], .finish⟩
  | case2 rest => exact ⟨rest, .quote rest⟩
  | case3 rest => exact ⟨_, .line rest⟩
  | case4 rest => exact ⟨_, .loneBackslash (by simp) (.line rest)⟩
  | case5 => exact ⟨[], .loneBackslash (by simp) .finish⟩
  | case6 c rest hline ih =>
      obtain ⟨behind, h⟩ := ih
      exact ⟨behind, .escape hline h⟩
  | case7 c rest hquote hline hescapedLine hlone hescape ih =>
      obtain ⟨behind, h⟩ := ih
      refine ⟨behind, .plain ?_ h⟩
      simp only [List.mem_cons, List.not_mem_nil, or_false]
      rintro (rfl | rfl | rfl)
      · exact hquote rfl
      · cases rest with
        | nil => exact hlone rfl rfl
        | cons d rest => exact hescape d rest rfl rfl
      · exact hline rfl

end StringBody

namespace FallsInto

variable {text behind : List Char} {parts : List StringPart} {closed : Bool}

/-- A text falls into the parts that are read, and no others. -/
theorem read_eq (h : FallsInto text parts closed behind) :
    StringBody.read text = ⟨parts, closed⟩ := by
  induction h with
  | quote => rw [StringBody.read]
  | line => rw [StringBody.read]
  | finish => rw [StringBody.read]
  | escape hline _ ih =>
      rw [StringBody.read, ih, StringBody.cons]
      exact hline
  | @loneBackslash rest _ _ _ hrest h ih =>
      cases rest with
      | nil =>
          cases h
          rw [StringBody.read]
      | cons c rest =>
          obtain rfl := hrest c rfl
          cases h with
          | line => rw [StringBody.read]
          | plain hc => simp at hc
  | plain hc _ ih =>
      simp only [List.mem_cons, List.not_mem_nil, or_false, not_or] at hc
      rw [StringBody.read, ih, StringBody.cons] <;> simp_all

theorem text_eq (h : FallsInto text parts closed behind) :
    text = partsText parts closed ++ behind := by
  induction h with
  | quote => simp [partsText]
  | line => simp [partsText]
  | finish => simp [partsText]
  | escape _ _ ih => simpa [partsText, StringPart.source] using ih
  | loneBackslash _ _ ih => simpa [partsText, StringPart.source] using ih
  | plain _ _ ih => simpa [partsText, StringPart.source] using ih

/-- There is one way only in which a text falls into parts. -/
theorem unique {behind' : List Char} {parts' : List StringPart} {closed' : Bool}
    (h : FallsInto text parts closed behind) (h' : FallsInto text parts' closed' behind') :
    parts' = parts ∧ closed' = closed ∧ behind' = behind := by
  have hread := h'.read_eq.symm.trans h.read_eq
  obtain ⟨rfl, rfl⟩ := StringBody.mk.inj hread
  refine ⟨rfl, rfl, ?_⟩
  have htext := h'.text_eq.symm.trans h.text_eq
  exact List.append_cancel_left htext

end FallsInto

namespace StringPart

/-- The scanner reads each part as what it stands for. -/
theorem value?_eq_some_iff {part : StringPart} {c : Char} :
    part.value? = some c ↔ part.StandsFor c := by
  constructor
  · intro h
    cases part with
    | plain d =>
        obtain rfl := Option.some.inj h
        exact .plain d
    | loneBackslash => cases h
    | escape d =>
        rw [value?] at h
        unfold unescape? at h
        split at h
        case h_8 => cases h
        all_goals
          obtain rfl := Option.some.inj h
          constructor
  · intro h
    cases h <;> rfl

theorem hasMeaning_iff {part : StringPart} : part.HasMeaning ↔ part.value?.isSome = true := by
  rw [Option.isSome_iff_exists]
  exact exists_congr fun _ => value?_eq_some_iff.symm

instance : DecidablePred HasMeaning := fun _ => decidable_of_iff _ hasMeaning_iff.symm

end StringPart

namespace StringBody

/-- The first part without a meaning is the fault, and those before it are sound. -/
theorem fault?_eq_some {parts before more : List StringPart} {bad : StringPart} (closed : Bool)
    (hparts : parts = before ++ bad :: more) (hbefore : ∀ part ∈ before, part.HasMeaning)
    (hbad : ¬ bad.HasMeaning) :
    fault? ⟨parts, closed⟩ = some bad ∧ sound ⟨parts, closed⟩ = before := by
  have hsome : ∀ part ∈ before, part.value?.isSome = true :=
    fun part member => StringPart.hasMeaning_iff.mp (hbefore part member)
  have hnone : bad.value? = none :=
    Option.not_isSome_iff_eq_none.mp (mt StringPart.hasMeaning_iff.mpr hbad)
  constructor
  · apply List.find?_eq_some_iff_append.mpr
    refine ⟨by simp [hnone], before, more, hparts, fun part member => ?_⟩
    simp [hsome part member]
  · rw [sound, hparts, List.takeWhile_append_of_pos hsome, List.takeWhile_cons, hnone]
    simp

theorem fault?_eq_none {parts : List StringPart} (closed : Bool)
    (h : ∀ part ∈ parts, part.HasMeaning) : fault? ⟨parts, closed⟩ = none := by
  apply List.find?_eq_none.mpr
  intro part member
  have hsome := StringPart.hasMeaning_iff.mp (h part member)
  simp [Option.isSome_iff_ne_none.mp hsome]

/-- Parts that all have a meaning are read as what they stand for. -/
theorem standsFor_value {parts : List StringPart} (closed : Bool)
    (h : ∀ part ∈ parts, part.HasMeaning) :
    List.Forall₂ StringPart.StandsFor parts (value ⟨parts, closed⟩) := by
  unfold value
  induction parts with
  | nil => exact .nil
  | cons part parts ih =>
      obtain ⟨⟨c, hc⟩, hparts⟩ := List.forall_mem_cons.mp h
      rw [List.filterMap_cons_some (StringPart.value?_eq_some_iff.mpr hc)]
      exact .cons hc (ih hparts)

theorem source_eq (parts : List StringPart) (closed : Bool) :
    source ⟨parts, closed⟩ = '"' :: partsText parts closed := rfl

end StringBody

section Literals

variable {parts : List StringPart} (h : ∀ part ∈ parts, part.HasMeaning)
include h

theorem Lexeme.ofString_closed :
    Lexeme.ofString ⟨parts, true⟩ =
      .whole .string (.text (String.ofList (StringBody.value ⟨parts, true⟩)))
        ('"' :: partsText parts true) := by
  simp [Lexeme.ofString, StringBody.fault?_eq_none true h, StringBody.source_eq]

theorem Lexeme.ofString_unclosed :
    Lexeme.ofString ⟨parts, false⟩ =
      .verbatim (.flaw .unclosedString) ('"' :: partsText parts false) := by
  simp [Lexeme.ofString, StringBody.fault?_eq_none false h, StringBody.source_eq]

end Literals

namespace Scanner

/-- What comes of scanning at the quote at `start`, where the text behind it falls into `parts` and
goes on with `behind`. -/
structure ScannedString (text : List Char) (start : Nat) (parts : List StringPart) (closed : Bool)
    (behind : List Char) (t : Token) (next : Scanner) : Prop where
  offset_eq : next.place.offset = start + (1 + (partsText parts closed).length)
  rest_eq : next.rest = behind
  tracks : next.Tracks text
  placed : t.LiesIn text
  invalid_escape : ∀ before bad more, parts = before ++ bad :: more →
    (∀ part ∈ before, part.HasMeaning) → ¬ bad.HasMeaning →
    t.kind = .flaw .invalidEscape ∧ t.payload = .text (String.ofList bad.source) ∧
      t.span.start = start + (1 + (before.flatMap StringPart.source).length) ∧
      t.span.stop = t.span.start + bad.source.length
  string : (∀ part ∈ parts, part.HasMeaning) → closed = true →
    t.kind = .string ∧ t.span.start = start ∧ t.span.stop = next.place.offset ∧
      ∃ value, List.Forall₂ StringPart.StandsFor parts value ∧
        t.payload = .text (String.ofList value)
  unclosed : (∀ part ∈ parts, part.HasMeaning) → closed = false →
    t.kind = .flaw .unclosedString ∧ t.span.start = start ∧ t.span.stop = next.place.offset ∧
      t.payload = .text (String.ofList (t.span.slice text))

/-- Scanning moves exactly behind the lexeme. -/
theorem Tracks.scanToken_moves {text source behind : List Char} {s : Scanner} (h : s.Tracks text)
    (hsource : (Lexeme.scan s.rest).source = source)
    (hleading : text.drop s.place.offset = source ++ behind) :
    s.scanToken.2.place.offset = s.place.offset + source.length ∧ s.scanToken.2.rest = behind := by
  have hoffset : s.scanToken.2.place.offset = s.place.offset + source.length := by
    have hmarked : s.setMark.rest = source ++ behind := by
      rw [h.setMark.rest_eq]
      exact hleading
    change (s.place.after (s.setMark.rest.take (Lexeme.scan s.rest).source.length)).offset = _
    rw [hsource, hmarked, List.take_left, Position.offset_after]
  refine ⟨hoffset, ?_⟩
  rw [h.scanToken.2.rest_eq, hoffset, ← List.drop_drop, hleading, List.drop_left]

/-- Wherever a scanner stands at a quote, the parts behind it decide the token and the move. -/
theorem Tracks.scannedString {text rest behind : List Char} {s : Scanner} (h : s.Tracks text)
    (hrest : text.drop s.place.offset = '"' :: rest) {parts : List StringPart} {closed : Bool}
    (hfalls : FallsInto rest parts closed behind) :
    ScannedString text s.place.offset parts closed behind s.scanToken.1 s.scanToken.2 := by
  obtain ⟨hplaced, htracks⟩ := h.scanToken
  have hscan : Lexeme.scan s.rest = .ofString ⟨parts, closed⟩ := by
    rw [h.rest_eq, hrest, Lexeme.scan, if_pos rfl, hfalls.read_eq]
  have hsource : (Lexeme.scan s.rest).source = '"' :: partsText parts closed := by
    rw [hscan, Lexeme.source_ofString, StringBody.source_eq]
  have hleading : text.drop s.place.offset = ('"' :: partsText parts closed) ++ behind := by
    rw [hrest, hfalls.text_eq, List.cons_append]
  have htoken : s.scanToken.1 = (Lexeme.ofString ⟨parts, closed⟩).token s.place := by
    rw [← hscan]
    rfl
  obtain ⟨hoffset, hbehind⟩ := h.scanToken_moves hsource hleading
  rw [List.length_cons, Nat.add_comm _ 1] at hoffset
  rw [htoken] at hplaced ⊢
  refine ⟨hoffset, hbehind, htracks, hplaced, ?_, ?_, ?_⟩
  · intro before bad more hparts hbefore hbad
    obtain ⟨hfault, hsound⟩ := StringBody.fault?_eq_some closed hparts hbefore hbad
    simp [Lexeme.ofString, hfault, hsound, Lexeme.token]
  · rintro hmeant rfl
    rw [Lexeme.ofString_closed hmeant, hoffset]
    refine ⟨rfl, rfl, ?_, _, StringBody.standsFor_value true hmeant, rfl⟩
    simp only [Lexeme.token, Lexeme.whole, List.length_cons]
    omega
  · rintro hmeant rfl
    have hformed := Lexeme.formed_ofString rest
    rw [hfalls.read_eq, Lexeme.ofString_unclosed hmeant] at hformed
    have hspelled :=
      (PlacedLexeme.mk s.place _).slice_token hformed ⟨behind, hleading.symm⟩ (by simp)
    rw [Lexeme.ofString_unclosed hmeant, hoffset]
    refine ⟨rfl, hspelled.1, ?_, ?_⟩
    · simp only [Lexeme.token, Lexeme.verbatim, Lexeme.whole, List.length_cons]
      omega
    · exact congrArg (fun chars => Payload.text (String.ofList chars)) hspelled.2.symm

/-- Every offset in the text can be reached. -/
theorem exists_steps (source : String) {p : Nat} (hp : p ≤ source.toList.length) :
    ∃ steps, ((ofText source).performAll steps).place.offset = p := by
  refine ⟨[.advance p], ?_⟩
  have hplace : ((ofText source).performAll [.advance p]).place =
      Position.after {} (source.toList.take p) := rfl
  rw [hplace, Position.offset_after, List.length_take, Nat.min_eq_left hp]
  exact Nat.zero_add p

/-- Behind a quote at any offset the text falls into parts in exactly one way. A scanner can get to
the quote, and however it got there, scanning takes it exactly to where the parts stop, and gives the
token that the parts call for. -/
theorem string_parts_decide_token (source : String) (p : Nat)
    (hquote : source.toList[p]? = some '"') :
    ∃ parts closed behind, FallsInto (source.toList.drop (p + 1)) parts closed behind ∧
      (∀ parts' closed' behind', FallsInto (source.toList.drop (p + 1)) parts' closed' behind' →
        parts' = parts ∧ closed' = closed ∧ behind' = behind) ∧
      (∃ steps, ((ofText source).performAll steps).place.offset = p) ∧
      ∀ steps, let s := (ofText source).performAll steps
        s.place.offset = p →
          ScannedString source.toList p parts closed behind s.scanToken.1 s.scanToken.2 := by
  obtain ⟨behind, hfalls⟩ := StringBody.fallsInto_read (source.toList.drop (p + 1))
  generalize StringBody.read (source.toList.drop (p + 1)) = body at hfalls
  obtain ⟨hlt, hat⟩ := List.getElem?_eq_some_iff.mp hquote
  refine ⟨_, _, behind, hfalls, fun _ _ _ h => hfalls.unique h, exists_steps source hlt.le, ?_⟩
  intro steps s hplace
  have htracks : s.Tracks source.toList := (tracks_ofText source).performAll steps
  have hrest : source.toList.drop s.place.offset = '"' :: source.toList.drop (p + 1) := by
    rw [hplace, List.drop_eq_getElem_cons hlt, hat]
  rw [← hplace]
  exact htracks.scannedString hrest hfalls

/-- A literal that is not closed and has two parts without a meaning, an escape behind an escaped
quote and a backslash before the line feed: the token tells of the escape, and both are taken. In a
closed literal each of two escapes becomes the character it stands for. -/
theorem string_parts_decide_token_escape :
    let s := (ofText "\nx = \"a\\\"\\q\\\n").performAll [.advance 5]
    s.scanToken.1.kind = .flaw .invalidEscape ∧ s.scanToken.1.payload = .text "\\q" ∧
      s.scanToken.1.span.start = 9 ∧ s.scanToken.1.span.stop = 11 ∧
      s.scanToken.2.place.offset = 12 ∧ s.scanToken.2.rest = ['\n'] ∧
    (ofText "\"\\\x27\\n\"").scanToken.1.payload = .text "\x27\n" := by
  intro s
  obtain ⟨parts, closed, behind, _, hunique, _, hscanned⟩ :=
    string_parts_decide_token "\nx = \"a\\\"\\q\\\n" 5 (by decide)
  have hfalls : FallsInto ['a', '\\', '"', '\\', 'q', '\\', '\n']
      [.plain 'a', .escape '"', .escape 'q', .loneBackslash] false ['\n'] :=
    .plain (by decide) (.escape (by decide) (.escape (by decide)
      (.loneBackslash (by simp) (.line []))))
  obtain ⟨rfl, rfl, rfl⟩ := hunique _ _ _ hfalls
  have hs := hscanned [.advance 5] (by decide)
  obtain ⟨hkind, hpayload, hstart, hstop⟩ :=
    hs.invalid_escape [.plain 'a', .escape '"'] (.escape 'q') [.loneBackslash] (by simp) (by decide)
      (by decide)
  refine ⟨hkind, hpayload, hstart, by rw [hstop, hstart]; decide, hs.offset_eq, hs.rest_eq, ?_⟩
  obtain ⟨parts, closed, behind, _, hunique, _, hscanned⟩ :=
    string_parts_decide_token "\"\\\x27\\n\"" 0 (by decide)
  have hfalls : FallsInto ['\\', '\x27', '\\', 'n', '"'] [.escape '\x27', .escape 'n'] true [] :=
    .escape (by decide) (.escape (by decide) (.quote []))
  obtain ⟨rfl, rfl, rfl⟩ := hunique _ _ _ hfalls
  obtain ⟨_, _, _, value, hvalue, hpayload⟩ := (hscanned [] rfl).string (by decide) rfl
  obtain rfl : value = ['\x27', '\n'] := by
    cases hvalue with
    | cons hfirst hmore =>
        cases hmore with
        | cons hsecond hnone =>
            cases hfirst
            cases hsecond
            cases hnone
            rfl
  exact hpayload

end Scanner

/-- Between quotes an escaped text is read as one string token, which carries the text and covers
all of it, the quotes included. -/
theorem escaped_text_reads_back (text : String) :
    tokenize ("\"" ++ String.ofList (escapeText text.toList) ++ "\"") =
      [{ kind := .string
         payload := .text text
         span := { start := 0, stop := (escapeText text.toList).length + 2 }
         line := 1
         column := 1 }] := by
  have hquoted : (Word.string text).spelling.toList = '"' :: (escapeText text.toList ++ ['"']) := by
    simp [Word.spelling, quoteText]
  have hlexemes := (Word.string text).placedLexemes_word .nil {}
  rw [List.append_nil, placedLexemes] at hlexemes
  change (placedLexemes 0 {} (Word.string text).spelling.toList).map _ = _
  rw [hlexemes, hquoted]
  simp [PlacedLexeme.token, Lexeme.token, Lexeme.whole, Word.kind, Word.payload]

end Glass
