import Glass.Proofs.PlacelessParsing
import Glass.Proofs.TokenLocality

/-!
Trivia mean nothing. Blanks and comments can be put in front of any lexeme, even where it touches the
one before it, as long as they start with a blank: the tokens are the same, those behind just stand
further on, and so parsing comes to the same.
-/

namespace Glass

/-- `source` with `gap` in front of the character at `offset`. -/
def widen (source : String) (offset : Nat) (gap : List Char) : String :=
  String.ofList (source.toList.take offset ++ (gap ++ source.toList.drop offset))

/-- A lexeme can be moved away from what is before it. -/
theorem Lexeme.Formed.breaks {l : Lexeme} (h : l.Formed) {gap : List Char} (rest : List Char)
    {c : Char} (hfirst : gap.head? = some c) (hblank : isWhitespace c = true) :
    Breaks (l.source ++ rest) (gap ++ (l.source ++ rest)) := by
  obtain ⟨d, own, hown⟩ := List.exists_cons_of_ne_nil h.nonempty
  obtain ⟨more, rfl⟩ := List.head?_eq_some_iff.mp hfirst
  refine .blank (d := d) ?_ ?_ hblank
  · rw [hown]
    rfl
  · rintro rfl
    exact h.one_line (hown ▸ List.mem_cons_self)

/-- The tokens of a source that is widened by trivia in front of its `i`-th lexeme. -/
theorem tokenize_widen {source : String} {i : Nat} {l : PlacedLexeme}
    (hlexeme : (lexemesOf source)[i]? = some l) {gap : List Char} (hgap : Trivia False gap)
    {c : Char} (hfirst : gap.head? = some c) (hblank : isWhitespace c = true) :
    ∃ behind, tokenize (widen source l.start.offset gap) = (tokenize source).take i ++ behind ∧
      List.Forall₂ (Token.Moved gap.length) ((tokenize source).drop i) behind := by
  obtain ⟨hlt, hget⟩ := List.getElem?_eq_some_iff.mp hlexeme
  have hlexed := lexed_placedLexemes {} source.toList
  change Lexed {} source.toList (lexemesOf source) at hlexed
  rw [← List.take_append_drop i (lexemesOf source), List.drop_eq_getElem_cons hlt, hget] at hlexed
  obtain ⟨front, rest, htext, hstart, hformed, hfront, _⟩ := hlexed.cut_before
  have hoffset : l.start.offset = front.length := by
    rw [hstart, Position.offset_after]
    exact Nat.zero_add _
  have hwidened : (widen source l.start.offset gap).toList =
      front ++ (gap ++ (l.lexeme.source ++ rest)) := by
    rw [widen, String.toList_ofList, hoffset, htext, List.take_left, List.drop_left]
  have hbehind : (lexemesOf source).drop i =
      placedLexemes 0 (({} : Position).after front) (l.lexeme.source ++ rest) := by
    have hplaced := hfront.placedLexemes_eq
    rw [← htext] at hplaced
    exact List.append_cancel_left ((List.take_append_drop i _).trans hplaced)
  have hplaced := (hfront.broken (hformed.breaks rest hfirst hblank)).placedLexemes_eq
  rw [hgap.placedLexemes_append] at hplaced
  refine ⟨(placedLexemes 0 ((({} : Position).after front).after gap)
    (l.lexeme.source ++ rest)).map PlacedLexeme.token, ?_, ?_⟩
  · rw [tokenize, lexemesOf, hwidened, hplaced, List.map_append, List.map_take, tokenize]
  · rw [tokenize, ← List.map_drop, hbehind]
    exact placedLexemes_moved 0 (Position.offset_after ..) _

/-- Trivia mean nothing: put in front of any lexeme, they leave the kinds and payloads of the tokens
and the places of those before it as they are, move the others by their own length, and make no
difference to parsing. -/
theorem trivia_mean_nothing (source : String) {i : Nat} {l : PlacedLexeme}
    (hlexeme : (lexemesOf source)[i]? = some l) {gap : List Char} (hgap : Trivia False gap)
    {c : Char} (hfirst : gap.head? = some c) (hblank : isWhitespace c = true) :
    (tokenize (widen source l.start.offset gap)).map Token.content =
      (tokenize source).map Token.content ∧
    (tokenize (widen source l.start.offset gap)).take i = (tokenize source).take i ∧
    List.Forall₂ (Token.Moved gap.length) ((tokenize source).drop i)
      ((tokenize (widen source l.start.offset gap)).drop i) ∧
    ∀ filename limits, SameOutcome (parseProgram source filename limits)
      (parseProgram (widen source l.start.offset gap) filename limits) := by
  obtain ⟨behind, htokens, hmoved⟩ := tokenize_widen hlexeme hgap hfirst hblank
  have hlength : ((tokenize source).take i).length = i := by
    obtain ⟨hlt, _⟩ := List.getElem?_eq_some_iff.mp hlexeme
    rw [List.length_take, tokenize, List.length_map]
    omega
  have hcontent : (tokenize source).map Token.content =
      (tokenize (widen source l.start.offset gap)).map Token.content := by
    rw [htokens, List.map_append, ← map_content_of_moved hmoved, ← List.map_append,
      List.take_append_drop]
  refine ⟨hcontent.symm, ?_, ?_, sameOutcome_of_content hcontent⟩
  · rw [htokens, List.take_left' hlength]
  · rwa [htokens, List.drop_left' hlength]

/-- In `2..x` the second lexeme touches both its neighbours. -/
theorem trivia_mean_nothing_dots :
    ∃ l, (lexemesOf "2..x")[1]? = some l ∧
      widen "2..x" l.start.offset ['\t', '/', '/', '"', '\n'] = "2\t//\"\n..x" ∧
      SameOutcome (parseProgram "2..x" none {}) (parseProgram "2\t//\"\n..x" none {}) := by
  have hgap : Trivia False ['\t', '/', '/', '"', '\n'] :=
    .blank (by decide) (@Trivia.comment False ['"'] [] (by decide) (.blank (by decide) .nil))
  refine ⟨_, rfl, rfl, ?_⟩
  exact (trivia_mean_nothing "2..x" (i := 1) rfl hgap rfl rfl).2.2.2 none {}

end Glass
