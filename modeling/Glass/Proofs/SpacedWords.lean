import Glass.Proofs.PrintedNumber
import Glass.Value

/-!
Words and the tokens they are read as. A word is a literal, a name, a keyword or a symbol in its
printed form. Words with one space between each two of them are read as exactly these words again,
whatever they are: a number ends at the space, a quote or backslash inside a string is escaped, and no
symbol runs into the next.
-/

namespace Glass

/-- A double that is printed without a sign. -/
structure Magnitude where
  value : Float
  isFinite : Number.isFinite value = true
  not_negative : Number.isNegative value = false

/-- A text that can serve as a name. -/
structure Name where
  text : String
  isWord : LexemeClass.word.Contains text.toList
  not_keyword : ∀ k : Keyword, k.spelling ≠ text

inductive Word where
  | number (x : Magnitude)
  | string (text : String)
  | name (n : Name)
  | keyword (k : Keyword)
  | symbol (s : Symbol)

namespace Word

def spelling : Word → String
  | .number x => NumberStyle.printed.text x.value
  | .string text => quoteText text
  | .name n => n.text
  | .keyword k => k.spelling
  | .symbol s => s.spelling

def kind : Word → Kind
  | .number _ => .number
  | .string _ => .string
  | .name _ => .identifier
  | .keyword k => .keyword k
  | .symbol s => .symbol s

/-- A literal stands for its value, and every other word for itself. -/
def payload : Word → Payload
  | .number x => .number x.value
  | .string text => .text text
  | word => .text word.spelling

end Word

/-- The words in a row, one space between each two. -/
def spaced (words : List Word) : String := " ".intercalate (words.map Word.spelling)

/-- The text ends or goes on with a space. -/
inductive IsGap : List Char → Prop where
  | nil : IsGap []
  | space (rest : List Char) : IsGap (' ' :: rest)

theorem IsGap.head {rest : List Char} (h : IsGap rest) :
    ∀ c, rest.head? = some c → isWordChar c = false ∧ c ≠ '.' := by
  cases h with
  | nil => nofun
  | space rest =>
      intro c hc
      obtain rfl := Option.some.inj hc
      exact ⟨rfl, by decide⟩

theorem triviaLength_eq_zero {c : Char} (rest : List Char) (hblank : isWhitespace c = false)
    (hslash : c ≠ '/') : triviaLength false (c :: rest) = 0 := by
  simp [triviaLength, hblank, Ne.symm hslash]

namespace StringBody

/-- A character is written as one part of a literal, which stands for it. -/
theorem exists_part (c : Char) :
    ∃ part : StringPart, part.source = escapeChar c ∧ part.value? = some c ∧
      ∀ more, read (escapeChar c ++ more) = (read more).cons part := by
  unfold escapeChar
  split
  case h_7 =>
    refine ⟨.plain c, rfl, rfl, fun more => ?_⟩
    rw [List.singleton_append, read] <;> simp_all
  all_goals exact ⟨.escape _, rfl, rfl, fun more => rfl⟩

/-- An escaped text is read part by part up to the closing quote. -/
theorem read_escapeText (text rest : List Char) :
    ∃ parts, read (escapeText text ++ '"' :: rest) = ⟨parts, true⟩ ∧
      parts.flatMap StringPart.source = escapeText text ∧
      parts.map StringPart.value? = text.map some := by
  induction text with
  | nil => exact ⟨[], rfl, rfl, rfl⟩
  | cons c text ih =>
      obtain ⟨parts, hread, hsource, hvalue⟩ := ih
      obtain ⟨part, hpart, hmeans, hfirst⟩ := exists_part c
      have hescape : escapeText (c :: text) = escapeChar c ++ escapeText text := rfl
      refine ⟨part :: parts, ?_, ?_, ?_⟩
      · rw [hescape, List.append_assoc, hfirst, hread]
        rfl
      · rw [List.flatMap_cons, hpart, hsource, hescape]
      · rw [List.map_cons, hmeans, hvalue, List.map_cons]

end StringBody

namespace Lexeme

theorem scan_quoted (text : String) (rest : List Char) :
    scan ((quoteText text).toList ++ rest) = whole .string (.text text) (quoteText text).toList := by
  have hquoted : (quoteText text).toList = '"' :: (escapeText text.toList ++ ['"']) := by
    simp [quoteText]
  obtain ⟨parts, hread, hsource, hvalue⟩ := StringBody.read_escapeText text.toList rest
  have hfault : StringBody.fault? ⟨parts, true⟩ = none := by
    apply List.find?_eq_none.mpr
    intro part member
    have hmember := List.mem_map_of_mem (f := StringPart.value?) member
    rw [hvalue] at hmember
    obtain ⟨c, _, hc⟩ := List.mem_map.mp hmember
    simp [← hc]
  have hmeaning : StringBody.value ⟨parts, true⟩ = text.toList := by
    have hfilter : parts.filterMap StringPart.value? =
        (parts.map StringPart.value?).filterMap id := by
      rw [List.filterMap_map, Function.id_comp]
    rw [StringBody.value, hfilter, hvalue, List.filterMap_map]
    simp
  rw [hquoted, List.cons_append, scan, if_pos rfl, List.append_assoc, List.singleton_append, hread,
    ofString, hfault]
  simp [hmeaning, StringBody.source, hsource]

theorem scan_printed (x : Magnitude) {rest : List Char} (hrest : EndsNumber rest) :
    scan ((NumberStyle.printed.text x.value).toList ++ rest) =
      whole .number (.number x.value) (NumberStyle.printed.text x.value).toList := by
  have hread := NumberStyle.read_printed x.isFinite x.not_negative hrest
  obtain ⟨c, more, htext, hdigit⟩ := NumberStyle.printed_first x.isFinite x.not_negative
  have hquote : c ≠ '"' := by
    rintro rfl
    cases hdigit
  rw [htext, List.cons_append] at hread ⊢
  rw [scan, if_neg hquote, if_pos hdigit, hread]

theorem scan_word {word rest : List Char} (hword : LexemeClass.word.Contains word)
    (hrest : ∀ c, rest.head? = some c → isWordChar c = false) :
    scan (word ++ rest) = ofWord word := by
  cases hword with
  | @word c more hc hmore =>
      have hstart : isWordStart c = true := hc
      have hquote : c ≠ '"' := by
        rintro rfl
        cases hc
      have htake : (c :: more ++ rest).takeWhile isWordChar = c :: more := by
        apply takeWhile_append_eq _ hrest
        exact List.forall_mem_cons.mpr ⟨isWordChar_of_isWordStart hstart, hmore⟩
      rw [List.cons_append] at htake ⊢
      rw [scan, if_neg hquote, if_neg (by simp [not_isDigit_of_isWordStart hstart]), if_pos hstart,
        htake]

theorem scan_symbol (s : Symbol) {rest : List Char} (hrest : IsGap rest) :
    scan (s.spelling.toList ++ rest) = verbatim (.symbol s) s.spelling.toList := by
  cases hrest <;> cases s <;> rfl

end Lexeme

theorem LexemeClass.contains_word {text : List Char} (hfirst : text.head?.any isWordStart = true)
    (hall : text.all isWordChar = true) : word.Contains text := by
  cases text with
  | nil => cases hfirst
  | cons c rest => exact .word hfirst (List.forall_mem_cons.mp (List.all_eq_true.mp hall)).2

theorem Keyword.isWord (k : Keyword) : LexemeClass.word.Contains k.spelling.toList :=
  LexemeClass.contains_word (by cases k <;> rfl) (by cases k <;> rfl)

theorem isWhitespace_eq_false {c : Char} (h : c.isDigit = true ∨ isWordStart c = true) :
    isWhitespace c = false ∧ c ≠ '/' := by
  constructor
  · rw [Bool.eq_false_iff]
    intro hblank
    have hmember := mem_of_isWhitespace hblank
    simp only [List.mem_cons, List.not_mem_nil, or_false] at hmember
    rcases hmember with rfl | rfl | rfl | rfl <;> rcases h with h | h <;> cases h
  · rintro rfl
    rcases h with h | h <;> cases h

namespace Word

/-- A word in front of a gap is scanned as itself. -/
theorem scan_spelling (w : Word) {rest : List Char} (hrest : IsGap rest) :
    Lexeme.scan (w.spelling.toList ++ rest) = .whole w.kind w.payload w.spelling.toList := by
  cases w with
  | number x => exact Lexeme.scan_printed x hrest.head
  | string text => exact Lexeme.scan_quoted text rest
  | name n =>
      have hnone : Keyword.ofSpelling? n.text = none := by
        apply List.find?_eq_none.mpr
        intro k _
        simpa using n.not_keyword k
      rw [spelling, Lexeme.scan_word n.isWord fun c hc => (hrest.head c hc).1, Lexeme.ofWord,
        String.ofList_toList, hnone]
      simp only [Lexeme.verbatim, String.ofList_toList]
      rfl
  | keyword k =>
      have hsome : Keyword.ofSpelling? k.spelling = some k := by cases k <;> rfl
      rw [spelling, Lexeme.scan_word k.isWord fun c hc => (hrest.head c hc).1, Lexeme.ofWord,
        String.ofList_toList, hsome]
      simp only [Lexeme.verbatim, String.ofList_toList]
      rfl
  | symbol s =>
      rw [spelling, Lexeme.scan_symbol s hrest, Lexeme.verbatim, String.ofList_toList]
      rfl

theorem not_trivia (w : Word) {rest : List Char} (hrest : IsGap rest) :
    triviaLength false (w.spelling.toList ++ rest) = 0 := by
  have hword {word : List Char} (h : LexemeClass.word.Contains word) :
      triviaLength false (word ++ rest) = 0 := by
    cases h with
    | word hc =>
        obtain ⟨hblank, hslash⟩ := isWhitespace_eq_false (Or.inr hc)
        exact triviaLength_eq_zero _ hblank hslash
  cases w with
  | number x =>
      obtain ⟨c, more, htext, hdigit⟩ := NumberStyle.printed_first x.isFinite x.not_negative
      obtain ⟨hblank, hslash⟩ := isWhitespace_eq_false (Or.inl hdigit)
      rw [spelling, htext]
      exact triviaLength_eq_zero _ hblank hslash
  | string text =>
      simp only [spelling, quoteText, String.toList_append]
      exact triviaLength_eq_zero _ rfl (by decide)
  | name n => exact hword n.isWord
  | keyword k => exact hword k.isWord
  | symbol s => cases hrest <;> cases s <;> rfl

theorem spelling_ne_nil (w : Word) : w.spelling.toList ≠ [] := by
  intro hempty
  have hkind := congrArg Lexeme.kind (w.scan_spelling .nil)
  rw [hempty] at hkind
  cases w <;> cases hkind

/-- A word is taken first, and then what stands behind it. -/
theorem placedLexemes_word (w : Word) {rest : List Char} (hrest : IsGap rest) (p : Position) :
    placedLexemes 0 p (w.spelling.toList ++ rest) =
      ⟨p, .whole w.kind w.payload w.spelling.toList⟩ ::
        placedLexemes 0 (p.after w.spelling.toList) rest := by
  obtain ⟨c, more, htext⟩ := List.exists_cons_of_ne_nil w.spelling_ne_nil
  have htrivia := w.not_trivia hrest
  have hscan := w.scan_spelling hrest
  have hsource : (Lexeme.whole w.kind w.payload w.spelling.toList).source = w.spelling.toList := rfl
  have hplaced := @placedLexemes_scan p c (more ++ rest)
  rw [← List.cons_append, ← htext, hscan, hsource, List.drop_left] at hplaced
  exact hplaced htrivia

end Word

theorem placedLexemes_space {text : List Char} (h : triviaLength false text = 0) (p : Position) :
    placedLexemes 0 p (' ' :: text) = placedLexemes 0 (p.step ' ') text := by
  have hspace : triviaLength false (' ' :: text) = 1 := by
    rw [triviaLength]
    simp [isWhitespace, h]
  rw [placedLexemes, hspace]

def Word.content (w : Word) : Kind × Payload := (w.kind, w.payload)

def Token.content (t : Token) : Kind × Payload := (t.kind, t.payload)

theorem spaced_toList (words : List Word) :
    (spaced words).toList = [' '].intercalate (words.map fun w => w.spelling.toList) := by
  rw [spaced, String.toList_intercalate, List.map_map]
  rfl

theorem spaced_cons (w : Word) (words : List Word) :
    ∃ rest, (spaced (w :: words)).toList = w.spelling.toList ++ rest ∧
      (words = [] ∧ rest = [] ∨ words ≠ [] ∧ rest = ' ' :: (spaced words).toList) := by
  simp only [spaced_toList]
  cases words with
  | nil => exact ⟨[], by simp, Or.inl ⟨rfl, rfl⟩⟩
  | cons next words =>
      refine ⟨_, ?_, Or.inr ⟨by simp, rfl⟩⟩
      rw [List.map_cons, List.map_cons, List.intercalate_cons_cons, List.append_assoc,
        List.singleton_append]

theorem spaced_not_trivia {words : List Word} (h : words ≠ []) :
    triviaLength false (spaced words).toList = 0 := by
  obtain ⟨w, words, rfl⟩ := List.exists_cons_of_ne_nil h
  obtain ⟨rest, htext, ⟨_, rfl⟩ | ⟨_, rfl⟩⟩ := spaced_cons w words
  · rw [htext, w.not_trivia .nil]
  · rw [htext, w.not_trivia (.space _)]

theorem placedLexemes_spaced (words : List Word) (p : Position) :
    (placedLexemes 0 p (spaced words).toList).map (fun l => l.token.content) =
      words.map Word.content := by
  induction words generalizing p with
  | nil => rfl
  | cons w words ih =>
      obtain ⟨rest, htext, ⟨rfl, rfl⟩ | ⟨hmore, rfl⟩⟩ := spaced_cons w words
      · rw [htext, w.placedLexemes_word .nil]
        rfl
      · rw [htext, w.placedLexemes_word (.space _), placedLexemes_space (spaced_not_trivia hmore),
          List.map_cons, ih]
        rfl

/-- Words in a row are read as these words. -/
theorem tokenize_spaced (words : List Word) :
    (tokenize (spaced words)).map Token.content = words.map Word.content := by
  rw [tokenize, lexemesOf, List.map_map]
  exact placedLexemes_spaced words {}

end Glass
