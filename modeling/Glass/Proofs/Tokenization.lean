import Glass.Proofs.LexemeExtent
import Glass.Scanner

/-!
Tokenizing loses nothing. The lexemes of a text lie in it one behind the other, and all that lies
between them is whitespace and comments; each token has its lexeme's place and spelling. A stream
delivers the tokens one by one and then ends.
-/

namespace Glass

/-- Text that gives no token. A comment runs up to a line feed, or at the end of the text as far as
the text goes. -/
inductive Trivia (atEnd : Prop) : List Char → Prop where
  | nil : Trivia atEnd []
  | blank {c : Char} {rest : List Char} :
      c ∈ [' ', '\t', '\r', '\n'] → Trivia atEnd rest → Trivia atEnd (c :: rest)
  | comment {body rest : List Char} :
      '\n' ∉ body → Trivia atEnd ('\n' :: rest) →
      Trivia atEnd ('/' :: '/' :: (body ++ '\n' :: rest))
  | lastComment {body : List Char} :
      atEnd → '\n' ∉ body → Trivia atEnd ('/' :: '/' :: body)

theorem Trivia.mono {atEnd atEnd' : Prop} {text : List Char} (h : Trivia atEnd text)
    (himp : atEnd → atEnd') : Trivia atEnd' text := by
  induction h with
  | nil => exact .nil
  | blank hc _ ih => exact .blank hc ih
  | comment hbody _ ih => exact .comment hbody ih
  | lastComment hend hbody => exact .lastComment (himp hend) hbody

theorem mem_of_isWhitespace {c : Char} (h : isWhitespace c = true) :
    c ∈ [' ', '\t', '\r', '\n'] := by
  simpa [isWhitespace, or_assoc] using h

/-- The rest of a comment, and what follows it. -/
def CommentTail (atEnd : Prop) (text : List Char) : Prop :=
  ∃ body rest, text = body ++ rest ∧ '\n' ∉ body ∧
    (atEnd ∧ rest = [] ∨ ∃ more, rest = '\n' :: more ∧ Trivia atEnd more)

theorem CommentTail.comment {atEnd : Prop} {text : List Char}
    (h : CommentTail atEnd ('/' :: text)) : Trivia atEnd ('/' :: '/' :: text) := by
  obtain ⟨body, rest, htext, hbody, hrest⟩ := h
  cases body with
  | nil =>
      rcases hrest with ⟨_, rfl⟩ | ⟨more, rfl, _⟩
      · cases htext
      · simp at htext
  | cons c body =>
      obtain ⟨rfl, rfl⟩ : '/' = c ∧ text = body ++ rest := List.cons.inj htext
      have hline : '\n' ∉ body := fun member => hbody (List.mem_cons_of_mem _ member)
      rcases hrest with ⟨hend, rfl⟩ | ⟨more, rfl, hmore⟩
      · rw [List.append_nil]
        exact .lastComment hend hline
      · exact .comment hline (.blank (by simp) hmore)

theorem triviaLength_comment (c : Char) (text : List Char) :
    triviaLength true (c :: text) = triviaLength (c != '\n') text + 1 := rfl

/-- What is skipped is trivia; a comment without a line feed is skipped only at the end. -/
theorem triviaLength_trivia (text : List Char) :
    Trivia (triviaLength false text = text.length) (text.take (triviaLength false text)) ∧
      CommentTail (triviaLength true text = text.length) (text.take (triviaLength true text)) := by
  induction text with
  | nil => exact ⟨.nil, [], [], rfl, by simp, Or.inl ⟨rfl, rfl⟩⟩
  | cons c text ih =>
      obtain ⟨hskip, hcomment⟩ := ih
      constructor
      · by_cases hblank : isWhitespace c = true
        · have hlength : triviaLength false (c :: text) = triviaLength false text + 1 := by
            simp [triviaLength, hblank]
          rw [hlength, List.take_succ_cons]
          exact .blank (mem_of_isWhitespace hblank) (hskip.mono fun h => by simp [h])
        by_cases hslashes : ['/', '/'].isPrefixOf (c :: text) = true
        · have hlength : triviaLength false (c :: text) = triviaLength true text + 1 := by
            simp [triviaLength, hblank, hslashes]
          obtain ⟨rest, hrest⟩ := List.isPrefixOf_iff_prefix.mp hslashes
          obtain ⟨rfl, rfl⟩ : '/' = c ∧ '/' :: rest = text := List.cons.inj hrest
          rw [hlength, List.take_succ_cons]
          rw [triviaLength_comment, List.take_succ_cons] at hcomment ⊢
          exact hcomment.comment.mono fun h => by simpa using h
        · have hlength : triviaLength false (c :: text) = 0 := by
            simp [triviaLength, hblank, hslashes]
          rw [hlength]
          exact .nil
      · rw [triviaLength_comment, List.take_succ_cons]
        by_cases hline : c = '\n'
        · subst hline
          exact ⟨[], _, rfl, by simp, Or.inr ⟨_, rfl, hskip.mono fun h => by simpa using h⟩⟩
        · obtain ⟨body, rest, htext, hbody, hrest⟩ := hcomment
          have hopen : (c != '\n') = true := by simpa using hline
          rw [hopen, htext]
          refine ⟨c :: body, rest, rfl, ?_, ?_⟩
          · exact List.not_mem_cons_of_ne_of_not_mem (Ne.symm hline) hbody
          · rcases hrest with ⟨hend, rfl⟩ | ⟨more, rfl, hmore⟩
            · exact Or.inl ⟨by simp [hend], rfl⟩
            · exact Or.inr ⟨more, rfl, hmore.mono fun h => by simp [h]⟩

/-- Trivia are skipped as far as they go. -/
theorem triviaLength_drop (inComment : Bool) (text : List Char) :
    triviaLength false (text.drop (triviaLength inComment text)) = 0 := by
  induction text generalizing inComment with
  | nil => rfl
  | cons c text ih =>
      rw [triviaLength]
      split
      · rw [List.drop_succ_cons]
        exact ih _
      split
      · rw [List.drop_succ_cons]
        exact ih _
      split
      · rw [List.drop_succ_cons]
        exact ih _
      · simp [triviaLength, *]

theorem ne_newline_of_triviaLength {c : Char} {rest : List Char}
    (h : triviaLength false (c :: rest) = 0) : c ≠ '\n' := by
  rintro rfl
  simp [triviaLength, isWhitespace] at h

/-- Behind a part the text goes on with what follows the part. -/
theorem drop_offset_after {text part rest : List Char} {p : Position}
    (h : text.drop p.offset = part ++ rest) : text.drop (p.after part).offset = rest := by
  rw [Position.offset_after, ← List.drop_drop, h, List.drop_left]

theorem placedLexemes_taken (taken : Nat) (p : Position) (text : List Char) :
    placedLexemes taken p text =
      placedLexemes 0 (p.after (text.take taken)) (text.drop taken) := by
  induction text generalizing taken p with
  | nil => simp [placedLexemes]
  | cons c text ih =>
      cases taken with
      | zero => rfl
      | succ taken =>
          rw [placedLexemes, ih, List.take_succ_cons, List.drop_succ_cons, Position.after_cons]

theorem placedLexemes_trivia (p : Position) (text : List Char) :
    placedLexemes 0 p text =
      placedLexemes 0 (p.after (text.take (triviaLength false text)))
        (text.drop (triviaLength false text)) := by
  cases text with
  | nil => rfl
  | cons c rest =>
      cases hlength : triviaLength false (c :: rest) with
      | zero => rfl
      | succ taken =>
          rw [placedLexemes, hlength]
          exact placedLexemes_taken (taken + 1) p (c :: rest)

theorem placedLexemes_scan (p : Position) {c : Char} {rest : List Char}
    (htrivia : triviaLength false (c :: rest) = 0) :
    placedLexemes 0 p (c :: rest) =
      ⟨p, Lexeme.scan (c :: rest)⟩ ::
        placedLexemes 0 (p.after (Lexeme.scan (c :: rest)).source)
          ((c :: rest).drop (Lexeme.scan (c :: rest)).source.length) := by
  obtain ⟨hformed, hleading⟩ := Lexeme.scan_formed rest (ne_newline_of_triviaLength htrivia)
  have hpositive := List.length_pos_iff.mpr hformed.nonempty
  have hlength := Nat.succ_pred_eq_of_pos hpositive
  rw [placedLexemes, htrivia]
  generalize Lexeme.scan (c :: rest) = lexeme at hleading hlength
  have htaken := placedLexemes_taken lexeme.source.length p (c :: rest)
  rw [← List.prefix_iff_eq_take.mp hleading] at htaken
  rw [← htaken, ← hlength]
  rfl

/-- The text from `p` on falls into these lexemes, each behind the trivia in front of it. -/
inductive Lexed : Position → List Char → List PlacedLexeme → Prop where
  | done {p : Position} {gap : List Char} :
      Trivia True gap → triviaLength false gap = gap.length → Lexed p gap []
  | lexeme {p : Position} {gap rest : List Char} {l : Lexeme} {more : List PlacedLexeme} :
      Trivia False gap → triviaLength false (gap ++ (l.source ++ rest)) = gap.length →
      Lexeme.scan (l.source ++ rest) = l → l.Formed →
      Lexed ((p.after gap).after l.source) rest more →
      Lexed p (gap ++ (l.source ++ rest)) (⟨p.after gap, l⟩ :: more)

theorem triviaLength_le (inComment : Bool) (text : List Char) :
    triviaLength inComment text ≤ text.length := by
  induction text generalizing inComment with
  | nil => exact Nat.le_refl _
  | cons c text ih =>
      rw [triviaLength, List.length_cons]
      split
      · exact Nat.succ_le_succ (ih _)
      split
      · exact Nat.succ_le_succ (ih _)
      split
      · exact Nat.succ_le_succ (ih _)
      · exact Nat.zero_le _

/-- Every text falls into its lexemes. -/
theorem lexed_placedLexemes (p : Position) (text : List Char) :
    Lexed p text (placedLexemes 0 p text) := by
  -- Every lexeme takes at least one character, so the text gets shorter.
  induction hn : text.length using Nat.strongRecOn generalizing p text with
  | _ n ih =>
      have hle := triviaLength_le false text
      have htrivia := (triviaLength_trivia text).1
      have hnext := triviaLength_drop false text
      have hsplit := List.take_append_drop (triviaLength false text) text
      have hgap : (text.take (triviaLength false text)).length = triviaLength false text := by
        rw [List.length_take, Nat.min_eq_left hle]
      rw [placedLexemes_trivia]
      generalize text.take (triviaLength false text) = gap at htrivia hsplit hgap
      cases hdrop : text.drop (triviaLength false text) with
      | nil =>
          rw [hdrop, List.append_nil] at hsplit
          subst hsplit
          exact .done (htrivia.mono fun _ => trivial) hgap.symm
      | cons c rest =>
          rw [hdrop] at hnext hsplit
          obtain ⟨hformed, behind, hbehind⟩ :=
            Lexeme.scan_formed rest (ne_newline_of_triviaLength hnext)
          rw [placedLexemes_scan _ hnext]
          generalize hscan : Lexeme.scan (c :: rest) = l at hformed hbehind ⊢
          have hpositive := List.length_pos_iff.mpr hformed.nonempty
          rw [← hbehind] at hscan hsplit ⊢
          rw [List.drop_left]
          subst hsplit
          simp only [List.length_append] at hn hgap htrivia
          refine .lexeme (htrivia.mono fun hend => ?_) hgap.symm hscan hformed
            (ih behind.length ?_ _ behind rfl)
          · omega
          · omega

/-- The ranges lie in the text one behind the other, none of them empty, and all that lies between
them, from `start` up to the end of the text, is trivia. -/
inductive Tiling (text : List Char) : (start : Nat) → List Span → Prop where
  | nil {start : Nat} : start ≤ text.length → Trivia True (text.drop start) → Tiling text start []
  | cons {start : Nat} {range : Span} {ranges : List Span} :
      start ≤ range.start → range.start < range.stop → range.stop ≤ text.length →
      Trivia False ((text.drop start).take (range.start - start)) →
      Tiling text range.stop ranges → Tiling text start (range :: ranges)

/-- The token is what stands in the range. -/
structure Covers (text : List Char) (range : Span) (t : Token) : Prop where
  one_line : '\n' ∉ range.slice text
  span_eq : t.kind ≠ .flaw .invalidEscape → t.span = range
  span_inside : t.kind = .flaw .invalidEscape →
    range.start < t.span.start ∧ t.span.start < t.span.stop ∧ t.span.stop ≤ range.stop
  spelling : t.kind ≠ .number → t.kind ≠ .string →
    t.payload = .text (String.ofList (t.span.slice text))

/-- The range a placed lexeme takes. -/
def PlacedLexeme.range (l : PlacedLexeme) : Span where
  start := l.start.offset
  stop := l.start.offset + l.lexeme.source.length

theorem slice_append {before middle behind : List Char} {s : Span} {skip width : Nat}
    (hstart : s.start = before.length + skip) (hstop : s.stop = s.start + width)
    (hwidth : skip + width ≤ middle.length) :
    s.slice (before ++ (middle ++ behind)) = (middle.drop skip).take width := by
  have hlength : s.length = width := by
    unfold Span.length
    omega
  have hinside : width ≤ (middle.drop skip).length := by
    rw [List.length_drop]
    omega
  rw [Span.slice, hlength, hstart, ← List.drop_drop, List.drop_left,
    List.drop_append_of_le_length (by omega), List.take_append_of_le_length hinside]

/-- A token covers the range of its lexeme. -/
theorem covers_range {p : Position} {before behind : List Char} {l : Lexeme} (hformed : l.Formed)
    (hoffset : before.length = p.offset) :
    Covers (before ++ (l.source ++ behind)) (PlacedLexeme.mk p l).range (l.token p) := by
  have hslice {s : Span} (hstart : s.start = p.offset + l.skip)
      (hstop : s.stop = s.start + l.width) (hwidth : l.skip + l.width ≤ l.source.length) :
      s.slice (before ++ (l.source ++ behind)) = (l.source.drop l.skip).take l.width :=
    slice_append (by rw [hoffset]; exact hstart) hstop hwidth
  refine ⟨?_, ?_, ?_, ?_⟩
  · have hall : (PlacedLexeme.mk p l).range.slice (before ++ (l.source ++ behind)) = l.source := by
      have hrange := @slice_append before l.source behind (PlacedLexeme.mk p l).range 0
        l.source.length hoffset.symm rfl (by omega)
      simpa using hrange
    rw [hall]
    exact hformed.one_line
  · intro hkind
    obtain ⟨hskip, hcovers⟩ := hformed.covered hkind
    simp [Lexeme.token, PlacedLexeme.range, hskip, hcovers]
  · intro hkind
    obtain ⟨hskip, hpositive, hinside⟩ := hformed.escaped hkind
    simp only [Lexeme.token, PlacedLexeme.range]
    omega
  · intro hnumber hstring
    rw [hslice rfl rfl hformed.width_le]
    exact hformed.spelled hnumber hstring

/-- Lexemes tile the text that falls into them, wherever in a longer text it ends. -/
theorem Lexed.tiling {p : Position} {text : List Char} {lexemes : List PlacedLexeme}
    (h : Lexed p text lexemes) {before : List Char} (hoffset : before.length = p.offset) :
    Tiling (before ++ text) p.offset (lexemes.map PlacedLexeme.range) ∧
      ∀ l ∈ lexemes, Covers (before ++ text) l.range l.token := by
  induction h generalizing before with
  | done htrivia _ =>
      refine ⟨.nil ?_ ?_, by simp⟩
      · rw [List.length_append]
        omega
      · rwa [← hoffset, List.drop_left]
  | @lexeme p gap rest l more hgap _ _ hformed _ ih =>
      have hpositive := List.length_pos_iff.mpr hformed.nonempty
      have hbefore : before ++ (gap ++ (l.source ++ rest)) = before ++ gap ++ l.source ++ rest := by
        simp
      obtain ⟨htiling, hcovers⟩ := @ih (before ++ gap ++ l.source) (by simp; omega)
      rw [← hbefore] at htiling hcovers
      constructor
      · refine .cons ?_ ?_ ?_ ?_ ?_
        · simp [PlacedLexeme.range]
        · simp only [PlacedLexeme.range]
          omega
        · simp only [PlacedLexeme.range, Position.offset_after, List.length_append]
          omega
        · have hlength : (PlacedLexeme.mk (p.after gap) l).range.start - p.offset = gap.length := by
            simp [PlacedLexeme.range]
          rw [hlength, ← hoffset, List.drop_left, List.take_left]
          exact hgap
        · simpa [PlacedLexeme.range] using htiling
      · refine List.forall_mem_cons.mpr ⟨?_, hcovers⟩
        rw [← List.append_assoc]
        exact covers_range hformed (by simp; omega)

/-- The token lies in a text of the given length and carries what its kind calls for. -/
structure Token.Fits (length : Nat) (t : Token) : Prop where
  span_le : t.span.stop ≤ length
  number : t.kind = .number → ∃ x, t.payload = .number x
  string : t.kind = .string → ∃ text, t.payload = .text text

theorem Lexed.fits {p : Position} {text : List Char} {lexemes : List PlacedLexeme}
    (h : Lexed p text lexemes) : ∀ l ∈ lexemes, l.token.Fits (p.offset + text.length) := by
  induction h with
  | done => simp
  | @lexeme p gap rest l more _ _ _ hformed _ ih =>
      have hwidth := hformed.width_le
      refine List.forall_mem_cons.mpr ⟨⟨?_, hformed.numeric, ?_⟩, ?_⟩
      · simp only [PlacedLexeme.token, Lexeme.token, Position.offset_after, List.length_append]
        omega
      · intro hkind
        exact hformed.textual fun hnumber => nomatch hkind.symm.trans hnumber
      · intro other member
        have hother := ih other member
        simp only [Position.offset_after, List.length_append] at hother ⊢
        rwa [show p.offset + (gap.length + (l.source.length + rest.length)) =
          p.offset + gap.length + l.source.length + rest.length by omega]

theorem tokenize_fits (source : String) : ∀ t ∈ tokenize source, t.Fits source.length := by
  intro t member
  obtain ⟨l, hl, rfl⟩ := List.mem_map.mp member
  have hfits := (lexed_placedLexemes {} source.toList).fits l hl
  rwa [String.length_toList, Nat.zero_add] at hfits

/-- The spans of the tokens lie one behind the other, and none is empty. -/
theorem Lexed.ordered {p : Position} {text : List Char} {lexemes : List PlacedLexeme}
    (h : Lexed p text lexemes) :
    (lexemes.map PlacedLexeme.token).Pairwise (fun t u => t.span.stop ≤ u.span.start) ∧
      ∀ l ∈ lexemes, p.offset ≤ l.token.span.start ∧ l.token.span.start < l.token.span.stop := by
  induction h with
  | done => simp
  | @lexeme p gap rest l more _ _ _ hformed _ ih =>
      obtain ⟨hordered, hbounds⟩ := ih
      have hwidth := hformed.width_le
      have hpositive := hformed.width_pos
      simp only [Position.offset_after] at hbounds
      constructor
      · rw [List.map_cons, List.pairwise_cons]
        refine ⟨?_, hordered⟩
        intro t member
        obtain ⟨other, hother, rfl⟩ := List.mem_map.mp member
        have hbound := (hbounds other hother).1
        simp only [PlacedLexeme.token, Lexeme.token, Position.offset_after] at hbound ⊢
        omega
      · refine List.forall_mem_cons.mpr ⟨?_, ?_⟩
        · simp only [PlacedLexeme.token, Lexeme.token, Position.offset_after]
          omega
        · intro other member
          obtain ⟨hstart, hlt⟩ := hbounds other member
          exact ⟨by omega, hlt⟩

/-- Two tokens of a text with the same span are the same token. -/
theorem tokenize_span_injective {source : String} {i j : Nat} {t u : Token}
    (hi : (tokenize source)[i]? = some t) (hj : (tokenize source)[j]? = some u)
    (hspan : t.span = u.span) : i = j := by
  obtain ⟨hordered, hbounds⟩ := (lexed_placedLexemes {} source.toList).ordered
  have hpositive : ∀ t ∈ tokenize source, t.span.start < t.span.stop := by
    intro t member
    obtain ⟨l, hl, rfl⟩ := List.mem_map.mp member
    exact (hbounds l hl).2
  have ht := hpositive t (List.mem_of_getElem? hi)
  obtain ⟨hilt, rfl⟩ := List.getElem?_eq_some_iff.mp hi
  obtain ⟨hjlt, rfl⟩ := List.getElem?_eq_some_iff.mp hj
  rcases Nat.lt_trichotomy i j with hlt | heq | hgt
  · have hbefore := List.pairwise_iff_getElem.mp hordered i j hilt hjlt hlt
    change (tokenize source)[i].span.stop ≤ (tokenize source)[j].span.start at hbefore
    rw [← hspan] at hbefore
    omega
  · exact heq
  · have hbefore := List.pairwise_iff_getElem.mp hordered j i hjlt hilt hgt
    change (tokenize source)[j].span.stop ≤ (tokenize source)[i].span.start at hbefore
    rw [← hspan] at hbefore
    omega

namespace Scanner

/-- Asked again and again, the stream delivers the tokens and then ends. -/
inductive Delivers (index : Nat) : Scanner → List Token → Scanner → Prop where
  | ended {s last : Scanner} :
      s.next index = (none, last) → last.streams[index]? = some .ended → Delivers index s [] last
  | token {s next last : Scanner} {t : Token} {ts : List Token} :
      s.next index = (some t, next) → Delivers index next ts last → Delivers index s (t :: ts) last

theorem rest_skip (s : Scanner) (count : Nat) : (s.skip count).rest = s.rest.drop count := by
  simp only [rest, skip, Position.offset_after, List.length_take, List.length_drop, List.drop_drop]
  by_cases hle : count ≤ s.source.length - s.place.offset
  · rw [Nat.min_eq_left hle]
  · rw [Nat.min_eq_right (by omega), List.drop_of_length_le (by omega),
      List.drop_of_length_le (by omega)]

theorem next_of_running {s : Scanner} {index : Nat} (hstream : s.streams[index]? = some .running) :
    s.next index =
      if s.skipTrivia.rest.isEmpty then (none, s.skipTrivia.setStream index .ended)
      else (some s.skipTrivia.scanToken.1, s.skipTrivia.scanToken.2) := by
  simp only [next, enter?, hstream]

/-- A running stream delivers the lexemes that the rest of the text falls into. -/
theorem delivers_of_lexed {p : Position} {text : List Char} {lexemes : List PlacedLexeme}
    (h : Lexed p text lexemes) {s : Scanner} {index : Nat} (hplace : s.place = p)
    (htext : s.rest = text) (hstream : s.streams[index]? = some .running) :
    ∃ last, Delivers index s (lexemes.map PlacedLexeme.token) last := by
  induction h generalizing s with
  | @done p gap _ hskip =>
      have hrest : s.skipTrivia.rest = [] := by
        rw [skipTrivia, rest_skip, htext, hskip, List.drop_length]
      have hnext := next_of_running hstream
      rw [hrest] at hnext
      refine ⟨s.skipTrivia.setStream index .ended, .ended hnext ?_⟩
      obtain ⟨hindex, _⟩ := List.getElem?_eq_some_iff.mp hstream
      simp [setStream, skipTrivia, skip, hindex]
  | @lexeme p gap rest l more _ hskip hscan hformed _ ih =>
      have hrest : s.skipTrivia.rest = l.source ++ rest := by
        rw [skipTrivia, rest_skip, htext, hskip, List.drop_left]
      have hready : s.skipTrivia.place = p.after gap := by
        simp only [skipTrivia, skip]
        rw [hplace, htext, hskip, List.take_left]
      have hnext := next_of_running hstream
      have hnonempty : (l.source ++ rest).isEmpty = false := by
        simp [hformed.nonempty]
      simp only [scanToken, hrest, hscan, hready, hnonempty, Bool.false_eq_true, if_false] at hnext
      have hmarked : s.skipTrivia.setMark.rest = l.source ++ rest := hrest
      obtain ⟨last, hmore⟩ := @ih (s.skipTrivia.setMark.skip l.source.length)
        (by
          simp only [skip, hmarked, List.take_left]
          rw [setMark, hready])
        (by rw [rest_skip, hmarked, List.drop_left]) hstream
      exact ⟨last, .token hnext hmore⟩

/-- A stream that is opened on a text delivers its tokens and ends. -/
theorem delivers_tokenize (source : String) :
    ∃ last, Delivers 0 (ofText source).openStream.2 (tokenize source) last := by
  have hlexed := lexed_placedLexemes {} source.toList
  let entered : Scanner := { source := source.toList, streams := [.running] }
  obtain ⟨last, hdelivers⟩ :=
    @delivers_of_lexed _ _ _ hlexed entered 0 rfl rfl rfl
  -- The first token is asked of a fresh stream, which starts where the running one stands.
  have hfirst : (ofText source).openStream.2.next 0 = entered.next 0 := rfl
  refine ⟨last, ?_⟩
  change Delivers 0 entered (tokenize source) last at hdelivers
  generalize tokenize source = tokens at hdelivers
  cases hdelivers with
  | ended hnext hended => exact .ended (hfirst.trans hnext) hended
  | token hnext hmore => exact .token (hfirst.trans hnext) hmore

end Scanner

/-- Tokenizing ends and loses nothing: the tokens lie in ranges that tile the text, and each is what
stands in its range. -/
theorem tokenize_lossless (source : String) :
    (∃ placed : List (Span × Token), placed.map Prod.snd = tokenize source ∧
      Tiling source.toList 0 (placed.map Prod.fst) ∧
      ∀ entry ∈ placed, Covers source.toList entry.1 entry.2) ∧
    ∃ last, Scanner.Delivers 0 (Scanner.ofText source).openStream.2 (tokenize source) last := by
  refine ⟨?_, Scanner.delivers_tokenize source⟩
  obtain ⟨htiling, hcovers⟩ := @Lexed.tiling _ _ _ (lexed_placedLexemes {} source.toList) [] rfl
  refine ⟨(lexemesOf source).map fun l => (l.range, l.token), ?_, ?_, ?_⟩
  · rw [List.map_map]
    rfl
  · rw [List.map_map]
    exact htiling
  · intro entry member
    obtain ⟨l, hl, rfl⟩ := List.mem_map.mp member
    exact hcovers l hl

end Glass
