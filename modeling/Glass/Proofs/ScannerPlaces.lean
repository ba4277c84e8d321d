import Glass.Proofs.Tokenization

/-!
The places a scanner goes through. Whatever is asked of a scanner, its place and its mark lie in the
text, and the lines and columns that were counted on the way are those of their offsets; so are those
of every token it gives. Nothing is refused but a move backwards, and that changes nothing.
-/

namespace Glass

/-- The line that the place at `offset` lies on begins at `start`: at the front of the text or just
behind a line feed, with no line feed from there up to the place. -/
structure LineStart (text : List Char) (offset start : Nat) : Prop where
  le : start ≤ offset
  opens : start = 0 ∨ text[start - 1]? = some '\n'
  unbroken : ∀ i, start ≤ i → i < offset → text[i]? ≠ some '\n'

/-- The position lies in the text, and its line and column are those of its offset. -/
structure Position.Marks (text : List Char) (p : Position) : Prop where
  offset_le : p.offset ≤ text.length
  line_eq : p.line = 1 + (text.take p.offset).count '\n'
  column_eq : ∃ start, LineStart text p.offset start ∧ p.column = p.offset - start + 1

namespace Position

theorem marks_start (text : List Char) : Marks text {} where
  offset_le := Nat.zero_le _
  line_eq := rfl
  column_eq := ⟨0, ⟨Nat.le_refl _, Or.inl rfl, fun i _ hi => absurd hi (Nat.not_lt_zero i)⟩, rfl⟩

theorem Marks.step {text : List Char} {p : Position} {c : Char} (h : p.Marks text)
    (hc : text[p.offset]? = some c) : (p.step c).Marks text := by
  obtain ⟨hlt, rfl⟩ := List.getElem?_eq_some_iff.mp hc
  obtain ⟨start, hstart, hcolumn⟩ := h.column_eq
  have htake : text.take (p.offset + 1) = text.take p.offset ++ [text[p.offset]] :=
    (List.take_append_getElem hlt).symm
  unfold Position.step
  split
  · rename_i hline
    refine ⟨hlt, ?_, p.offset + 1, ⟨Nat.le_refl _, Or.inr ?_, ?_⟩, ?_⟩
    · rw [htake, hline, List.count_append, h.line_eq]
      rfl
    · rw [Nat.add_sub_cancel, hc, hline]
    · intro i hle hi
      exact absurd hi (Nat.not_lt.mpr hle)
    · simp
  · rename_i hline
    refine ⟨hlt, ?_, start, ⟨Nat.le_succ_of_le hstart.le, hstart.opens, ?_⟩, ?_⟩
    · rw [htake, List.count_append, List.count_singleton, if_neg (by simpa using hline), h.line_eq]
      rfl
    · intro i hle hi
      rcases Nat.lt_succ_iff_lt_or_eq.mp hi with hbefore | rfl
      · exact hstart.unbroken i hle hbefore
      · rw [hc]
        simpa using hline
    · have := hstart.le
      simp only [hcolumn]
      omega

/-- Walking over what stands at a position keeps the count. -/
theorem Marks.after {text part : List Char} {p : Position} (h : p.Marks text)
    (hpart : part <+: text.drop p.offset) : (p.after part).Marks text := by
  induction part generalizing p with
  | nil => exact h
  | cons c part ih =>
      obtain ⟨rest, hrest⟩ := hpart
      have hc : text[p.offset]? = some c := by
        rw [← List.head?_drop, ← hrest]
        rfl
      have hdrop : text.drop (p.offset + 1) = part ++ rest := by
        rw [← List.drop_drop, ← hrest]
        rfl
      exact ih (h.step hc) ⟨rest, by rw [Position.offset_step, hdrop]⟩

end Position

/-- The token lies in the text, and its line and column are those of the start of its span. -/
structure Token.LiesIn (text : List Char) (t : Token) : Prop where
  span_le : t.span.stop ≤ text.length
  start_marks : Position.Marks text ⟨t.span.start, t.line, t.column⟩

theorem Symbol.atFront?_newline (rest : List Char) : Symbol.atFront? ('\n' :: rest) = none := by
  apply List.find?_eq_none.mpr
  intro s _
  cases s <;> simp [Symbol.spelling]

/-- Wherever a lexeme is scanned, at trivia or at the end too, it is a part of the text and its token
a part of the lexeme. -/
theorem Lexeme.scan_inside (text : List Char) :
    (Lexeme.scan text).source <+: text ∧
      (Lexeme.scan text).skip + (Lexeme.scan text).width ≤ (Lexeme.scan text).source.length := by
  cases text with
  | nil => exact ⟨List.nil_prefix, Nat.le_refl _⟩
  | cons c rest =>
      by_cases hline : c = '\n'
      · have hscan : Lexeme.scan (c :: rest) = .verbatim (.flaw .unknownToken) ['\n'] := by
          simp [Lexeme.scan, hline, isWordStart, Symbol.atFront?_newline]
        rw [hscan, hline]
        exact ⟨⟨rest, rfl⟩, Nat.le_refl _⟩
      · obtain ⟨hformed, hleading⟩ := Lexeme.scan_formed rest hline
        exact ⟨hleading, hformed.width_le⟩

/-- The token of a lexeme that stands at a position lies in the text. -/
theorem Lexeme.token_liesIn {text : List Char} {p : Position} {l : Lexeme} (hp : p.Marks text)
    (hleading : l.source <+: text.drop p.offset) (hwidth : l.skip + l.width ≤ l.source.length) :
    (l.token p).LiesIn text := by
  have hstart : (p.after (l.source.take l.skip)).Marks text :=
    hp.after ((List.take_prefix _ _).trans hleading)
  have hoffset : (p.after (l.source.take l.skip)).offset = p.offset + l.skip := by
    rw [Position.offset_after, List.length_take, Nat.min_eq_left (by omega)]
  have hlength := hleading.length_le
  have hbound := hp.offset_le
  constructor
  · rw [List.length_drop] at hlength
    simp only [Lexeme.token]
    omega
  · simp only [Lexeme.token, ← hoffset]
    exact hstart

/-- The lexemes that the text falls into stand where their positions say. -/
theorem Lexed.marks {text rest : List Char} {p : Position} {lexemes : List PlacedLexeme}
    (h : Lexed p rest lexemes) (hp : p.Marks text) (hrest : text.drop p.offset = rest) :
    ∀ l ∈ lexemes, l.start.Marks text ∧ l.token.LiesIn text := by
  induction h with
  | done => simp
  | @lexeme p gap rest l more _ _ _ hformed _ ih =>
      have hstart : (p.after gap).Marks text := hp.after ⟨_, hrest.symm⟩
      have hat : text.drop (p.after gap).offset = l.source ++ rest := drop_offset_after hrest
      have hbehind : text.drop ((p.after gap).after l.source).offset = rest := drop_offset_after hat
      have hleading : l.source <+: text.drop (p.after gap).offset := ⟨rest, hat.symm⟩
      refine List.forall_mem_cons.mpr ⟨⟨hstart, ?_⟩, ih (hstart.after hleading) hbehind⟩
      exact Lexeme.token_liesIn hstart hleading hformed.width_le

namespace Scanner

/-- The scanner is on the text, and its place and mark are positions of the text. -/
structure Tracks (text : List Char) (s : Scanner) : Prop where
  source_eq : s.source = text
  place_marks : s.place.Marks text
  mark_marks : s.mark.Marks text

section
variable {text : List Char} {s : Scanner}

theorem tracks_ofText (source : String) : (ofText source).Tracks source.toList :=
  ⟨rfl, Position.marks_start _, Position.marks_start _⟩

theorem Tracks.rest_eq (h : s.Tracks text) : s.rest = text.drop s.place.offset := by
  rw [rest, h.source_eq]

theorem Tracks.skip (h : s.Tracks text) (count : Nat) : (s.skip count).Tracks text := by
  refine ⟨h.source_eq, h.place_marks.after ?_, h.mark_marks⟩
  rw [← h.rest_eq]
  exact List.take_prefix _ _

theorem Tracks.setMark (h : s.Tracks text) : s.setMark.Tracks text :=
  ⟨h.source_eq, h.place_marks, h.place_marks⟩

theorem Tracks.setStream (h : s.Tracks text) (index : Nat) (stream : TokenStream) :
    (s.setStream index stream).Tracks text :=
  ⟨h.source_eq, h.place_marks, h.mark_marks⟩

/-- A stream finds the scanner where it was or at the front of the text. -/
theorem Tracks.enter? {index : Nat} {entered : Scanner} (h : s.Tracks text)
    (hentered : s.enter? index = some entered) : entered.Tracks text := by
  unfold Scanner.enter? at hentered
  split at hentered
  · obtain rfl := Option.some.inj hentered
    exact ⟨h.source_eq, Position.marks_start _, h.mark_marks⟩
  · obtain rfl := Option.some.inj hentered
    exact h
  · cases hentered
  · cases hentered

theorem Tracks.scanToken (h : s.Tracks text) :
    s.scanToken.1.LiesIn text ∧ s.scanToken.2.Tracks text := by
  obtain ⟨hleading, hwidth⟩ := Lexeme.scan_inside s.rest
  rw [h.rest_eq] at hleading hwidth
  refine ⟨?_, h.setMark.skip _⟩
  simp only [Scanner.scanToken, h.rest_eq]
  exact Lexeme.token_liesIn h.place_marks hleading hwidth

theorem Tracks.next (h : s.Tracks text) (index : Nat) :
    (∀ t ∈ (s.next index).1, t.LiesIn text) ∧ (s.next index).2.Tracks text := by
  unfold Scanner.next
  split
  · exact ⟨by simp, h⟩
  · rename_i entered hentered
    have hready := (h.enter? hentered).skip (triviaLength false entered.rest)
    dsimp only
    split
    · exact ⟨by simp, hready.setStream _ _⟩
    · obtain ⟨htoken, hbehind⟩ := hready.scanToken
      refine ⟨fun t member => ?_, hbehind⟩
      obtain rfl := Option.mem_some.mp member
      exact htoken

theorem Tracks.drain (h : s.Tracks text) (index : Nat) :
    (∀ t ∈ (s.drain index).1, t.LiesIn text) ∧ (s.drain index).2.Tracks text := by
  unfold Scanner.drain
  split
  · exact ⟨by simp, h⟩
  · rename_i entered hentered
    have hready := h.enter? hentered
    have hlexemes := (lexed_placedLexemes entered.place entered.rest).marks hready.place_marks
      hready.rest_eq.symm
    generalize placedLexemes 0 entered.place entered.rest = lexemes at hlexemes
    refine ⟨fun t member => ?_, ?_⟩
    · obtain ⟨l, hl, rfl⟩ := List.mem_map.mp member
      exact (hlexemes l hl).2
    · dsimp only
      apply Tracks.setStream
      apply Tracks.skip
      split
      · exact hready
      · rename_i last hlast
        have hmark := (hlexemes last (List.mem_of_getLast? hlast)).1
        exact ⟨hready.source_eq, hready.place_marks, hmark⟩

end

/-- The tokens that an answer gives. -/
def Answer.tokens : Answer → List Token
  | .scanned token => [token]
  | .delivered token => token.toList
  | .drained tokens => tokens
  | _ => []

/-- The move that an answer refuses. -/
def Answer.refused? : Answer → Option Int
  | .advanced (.error count) => some count
  | _ => none

/-- One step leads from positions of the text to positions of the text. -/
theorem Tracks.perform {text : List Char} {s : Scanner} (h : s.Tracks text) (step : Step) :
    (s.perform step).2.Tracks text ∧ ∀ t ∈ (s.perform step).1.tokens, t.LiesIn text := by
  cases step with
  | peek ahead => exact ⟨h, by simp [Scanner.perform, Answer.tokens]⟩
  | advance count =>
      refine ⟨?_, by simp [Scanner.perform, Answer.tokens]⟩
      simp only [Scanner.perform, advance]
      split
      · exact h
      · exact h.skip _
  | setMark => exact ⟨h.setMark, by simp [Scanner.perform, Answer.tokens]⟩
  | skipTrivia => exact ⟨h.skip _, by simp [Scanner.perform, Answer.tokens]⟩
  | scanToken =>
      obtain ⟨htoken, hnext⟩ := h.scanToken
      exact ⟨hnext, List.forall_mem_singleton.mpr htoken⟩
  | openStream =>
      exact ⟨⟨h.source_eq, h.place_marks, h.mark_marks⟩, by simp [Scanner.perform, Answer.tokens]⟩
  | next stream =>
      obtain ⟨htoken, hnext⟩ := h.next stream
      exact ⟨hnext, fun t member => htoken t (Option.mem_toList.mp member)⟩
  | drain stream =>
      obtain ⟨htokens, hnext⟩ := h.drain stream
      exact ⟨hnext, htokens⟩

/-- Do one step after another. -/
def performAll (s : Scanner) (steps : List Step) : Scanner :=
  steps.foldl (fun s step => (s.perform step).2) s

theorem Tracks.performAll {text : List Char} {s : Scanner} (h : s.Tracks text)
    (steps : List Step) : (s.performAll steps).Tracks text := by
  induction steps generalizing s with
  | nil => exact h
  | cons step steps ih => exact ih (h.perform step).1

theorem refused?_perform (s : Scanner) (step : Step) (count : Int) :
    (s.perform step).1.refused? = some count ↔ step = .advance count ∧ count < 0 := by
  cases step with
  | advance n =>
      simp only [Scanner.perform, advance]
      split
      · rename_i hn
        simp only [Answer.refused?, Option.some.injEq, Step.advance.injEq]
        constructor
        · rintro rfl
          exact ⟨rfl, hn⟩
        · exact And.left
      · rename_i hn
        simp only [Answer.refused?, Step.advance.injEq, reduceCtorEq, false_iff, not_and]
        rintro rfl
        exact hn
  | _ => simp [Scanner.perform, Answer.refused?]

/-- After any steps on a scanner, its place and its mark are positions of the text with the lines and
columns that belong to them, and one more step gives tokens of the text only. A step is refused
exactly if it is a move by a negative count, and it then leaves the scanner as it is. -/
theorem places_follow_text (source : String) (steps : List Step) (step : Step) :
    let s := (ofText source).performAll steps
    s.Tracks source.toList ∧ (s.perform step).2.Tracks source.toList ∧
      (∀ t ∈ (s.perform step).1.tokens, t.LiesIn source.toList) ∧
      ∀ count, ((s.perform step).1.refused? = some count ↔ step = .advance count ∧ count < 0) ∧
        ((s.perform step).1.refused? = some count → (s.perform step).2 = s) := by
  intro s
  have hs : s.Tracks source.toList := (tracks_ofText source).performAll steps
  obtain ⟨hnext, htokens⟩ := hs.perform step
  refine ⟨hs, hnext, htokens, fun count => ⟨refused?_perform s step count, fun hrefused => ?_⟩⟩
  obtain ⟨rfl, hnegative⟩ := (refused?_perform s step count).mp hrefused
  simp [Scanner.perform, advance, hnegative]

end Scanner

end Glass
