import Mathlib.Data.List.Forall2
import Glass.Proofs.LexemeLocality
import Glass.Proofs.SpacedWords

/-!
Tokenizing is local. The lexemes in the front of a text stay as they are if the text is broken behind
them, and none of them depends on where the text starts. So a part of a text that reaches from the
start of one lexeme to the end of another has the tokens that the text has there, flaws included, and
only their places are counted from the start of the part.
-/

namespace Glass

theorem Trivia.append {gap more : List Char} (h : Trivia False gap) (hmore : Trivia False more) :
    Trivia False (gap ++ more) := by
  induction h with
  | nil => exact hmore
  | blank hc _ ih => exact .blank hc ih
  | comment hbody _ ih =>
      rw [List.cons_append, List.cons_append, List.append_assoc]
      exact .comment hbody ih
  | lastComment hend => exact hend.elim

theorem isWhitespace_of_mem {c : Char} (h : c ∈ [' ', '\t', '\r', '\n']) :
    isWhitespace c = true := by
  simp only [List.mem_cons, List.not_mem_nil, or_false] at h
  rcases h with rfl | rfl | rfl | rfl <;> rfl

theorem triviaLength_blank {c : Char} (rest : List Char) (h : isWhitespace c = true) :
    triviaLength false (c :: rest) = triviaLength false rest + 1 := by
  simp [triviaLength, h]

theorem triviaLength_slashes (rest : List Char) :
    triviaLength false ('/' :: '/' :: rest) = triviaLength true rest + 2 := by
  simp [triviaLength, isWhitespace]

/-- A comment is skipped up to the end of its line. -/
theorem triviaLength_body {body : List Char} (hbody : '\n' ∉ body) (rest : List Char) :
    triviaLength true (body ++ '\n' :: rest) = body.length + triviaLength false ('\n' :: rest) := by
  induction body with
  | nil => simp [triviaLength, isWhitespace]
  | cons c body ih =>
      rw [List.mem_cons, not_or] at hbody
      have hopen : (c != '\n') = true := by simpa using Ne.symm hbody.1
      rw [List.cons_append, triviaLength_comment, hopen, ih hbody.2, List.length_cons]
      omega

/-- Trivia are skipped whole, and then what follows them. -/
theorem Trivia.triviaLength_append {gap : List Char} (h : Trivia False gap) (rest : List Char) :
    triviaLength false (gap ++ rest) = gap.length + triviaLength false rest := by
  induction h with
  | nil => simp
  | blank hc _ ih =>
      rw [List.cons_append, triviaLength_blank _ (isWhitespace_of_mem hc), ih, List.length_cons]
      omega
  | @comment body more hbody _ ih =>
      rw [List.cons_append, List.cons_append, triviaLength_slashes, List.append_assoc,
        List.cons_append, triviaLength_body hbody, ← List.cons_append, ih]
      simp only [List.length_cons, List.length_append]
      omega
  | lastComment hend => exact hend.elim

theorem Trivia.placedLexemes_append {gap : List Char} (h : Trivia False gap) (p : Position)
    (rest : List Char) :
    placedLexemes 0 p (gap ++ rest) = placedLexemes 0 (p.after gap) rest := by
  rw [placedLexemes_trivia p, placedLexemes_trivia (p.after gap), h.triviaLength_append,
    List.take_length_add_append, List.drop_length_add_append, Position.after_append]

theorem triviaLength_cons_eq_zero_iff {c : Char} {rest : List Char} :
    triviaLength false (c :: rest) = 0 ↔
      isWhitespace c = false ∧ ¬ ['/', '/'] <+: c :: rest := by
  rw [← List.isPrefixOf_iff_prefix, triviaLength]
  cases isWhitespace c <;> cases ['/', '/'].isPrefixOf (c :: rest) <;> simp

theorem placedLexemes_lexeme {l : Lexeme} {rest : List Char} (p : Position) (hformed : l.Formed)
    (htrivia : triviaLength false (l.source ++ rest) = 0)
    (hscan : Lexeme.scan (l.source ++ rest) = l) :
    placedLexemes 0 p (l.source ++ rest) = ⟨p, l⟩ :: placedLexemes 0 (p.after l.source) rest := by
  obtain ⟨c, own, hown⟩ := List.exists_cons_of_ne_nil hformed.nonempty
  have hplaced := @placedLexemes_scan p c (own ++ rest)
  rw [← List.cons_append, ← hown, hscan, List.drop_left] at hplaced
  exact hplaced htrivia

/-- In a text that goes on with `rest` behind `front`, these are the lexemes that lie in `front`. -/
inductive LexedFront (rest : List Char) : Position → List Char → List PlacedLexeme → Prop where
  | gap {p : Position} {gap : List Char} : Trivia False gap → LexedFront rest p gap []
  | lexeme {p : Position} {gap front : List Char} {l : Lexeme} {more : List PlacedLexeme} :
      Trivia False gap → triviaLength false (l.source ++ (front ++ rest)) = 0 →
      Lexeme.scan (l.source ++ (front ++ rest)) = l → l.Formed →
      LexedFront rest ((p.after gap).after l.source) front more →
      LexedFront rest p (gap ++ (l.source ++ front)) (⟨p.after gap, l⟩ :: more)

namespace LexedFront

variable {p : Position} {front rest : List Char} {lexemes : List PlacedLexeme}

theorem placedLexemes_eq (h : LexedFront rest p front lexemes) :
    placedLexemes 0 p (front ++ rest) = lexemes ++ placedLexemes 0 (p.after front) rest := by
  induction h with
  | gap hgap => exact hgap.placedLexemes_append _ rest
  | lexeme hgap htrivia hscan hformed _ ih =>
      rw [List.append_assoc, List.append_assoc, hgap.placedLexemes_append,
        placedLexemes_lexeme _ hformed htrivia hscan, ih, Position.after_append,
        Position.after_append]
      rfl

/-- The lexemes are the same if the text is broken behind them. -/
theorem broken {tail : List Char} (h : LexedFront rest p front lexemes)
    (hbreaks : Breaks rest tail) : LexedFront tail p front lexemes := by
  induction h with
  | gap hgap => exact .gap hgap
  | @lexeme p gap front l more hgap htrivia hscan hformed _ ih =>
      refine .lexeme hgap ?_ (Lexeme.scan_broken hscan hformed.nonempty hbreaks) hformed ih
      obtain ⟨c, own, hown⟩ := List.exists_cons_of_ne_nil hformed.nonempty
      have hslashes : Solid ['/', '/'] := .cons rfl (.cons rfl .nil)
      rw [hown, List.cons_append, triviaLength_cons_eq_zero_iff, ← List.cons_append] at htrivia ⊢
      refine ⟨htrivia.1, fun hcomment => htrivia.2 ?_⟩
      exact hslashes.isPrefix_unbroken hbreaks.head_blank hcomment rest

/-- The trivia behind the lexemes can be counted to the front. -/
theorem append_gap {gap : List Char} (h : LexedFront (gap ++ rest) p front lexemes)
    (hgap : Trivia False gap) : LexedFront rest p (front ++ gap) lexemes := by
  induction h with
  | gap hfirst => exact .gap (hfirst.append hgap)
  | @lexeme _ _ front _ _ hfirst htrivia hscan hformed _ ih =>
      rw [← List.append_assoc front] at htrivia hscan
      rw [List.append_assoc, List.append_assoc]
      exact .lexeme hfirst htrivia hscan hformed ih

end LexedFront

namespace Lexed

variable {p : Position} {text : List Char} {first second : List PlacedLexeme}

/-- A text can be cut behind any of its lexemes. -/
theorem cut_behind (h : Lexed p text (first ++ second)) :
    ∃ front rest, text = front ++ rest ∧ LexedFront rest p front first ∧
      Lexed (p.after front) rest second ∧
      (p.after front).offset = (first.getLast?.map fun l => l.range.stop).getD p.offset := by
  induction first generalizing p text with
  | nil => exact ⟨[], text, rfl, .gap .nil, h, rfl⟩
  | cons l first ih =>
      cases h with
      | @lexeme _ gap rest l _ hgap hskip hscan hformed hmore =>
          obtain ⟨front, behind, rfl, hfront, hbehind, hstop⟩ := ih hmore
          rw [hgap.triviaLength_append] at hskip
          refine ⟨gap ++ (l.source ++ front), behind, by simp,
            .lexeme hgap (by omega) hscan hformed hfront, ?_⟩
          rw [Position.after_append, Position.after_append]
          refine ⟨hbehind, hstop.trans ?_⟩
          rw [List.getLast?_cons, Option.map_some, Option.getD_some, Position.offset_after]
          cases first.getLast? <;> rfl

/-- A text can be cut in front of any of its lexemes. -/
theorem cut_before {l : PlacedLexeme} (h : Lexed p text (first ++ l :: second)) :
    ∃ front rest, text = front ++ (l.lexeme.source ++ rest) ∧ l.start = p.after front ∧
      l.lexeme.Formed ∧ LexedFront (l.lexeme.source ++ rest) p front first ∧
      Lexed l.start (l.lexeme.source ++ rest) (l :: second) := by
  obtain ⟨front, behind, rfl, hfront, hbehind, _⟩ := h.cut_behind
  cases hbehind with
  | @lexeme _ gap rest l _ hgap hskip hscan hformed hmore =>
      rw [hgap.triviaLength_append] at hskip
      refine ⟨front ++ gap, rest, by simp, (Position.after_append ..).symm, hformed,
        hfront.append_gap hgap, ?_⟩
      exact @Lexed.lexeme _ [] rest l second .nil (by simpa using hskip) hscan hformed hmore

end Lexed

/-- The second token is the first one, but stands `distance` further on. -/
structure Token.Moved (distance : Nat) (t u : Token) : Prop where
  kind_eq : u.kind = t.kind
  payload_eq : u.payload = t.payload
  start_eq : u.span.start = t.span.start + distance
  stop_eq : u.span.stop = t.span.stop + distance

theorem Token.Moved.content_eq {distance : Nat} {t u : Token} (h : t.Moved distance u) :
    t.content = u.content :=
  Prod.ext h.kind_eq.symm h.payload_eq.symm

theorem map_content_of_moved {distance : Nat} {ts us : List Token}
    (h : List.Forall₂ (Token.Moved distance) ts us) :
    ts.map Token.content = us.map Token.content := by
  induction h with
  | nil => rfl
  | cons hmoved _ ih => rw [List.map_cons, List.map_cons, hmoved.content_eq, ih]

theorem PlacedLexeme.range_start (l : PlacedLexeme) : l.range.start = l.start.offset := rfl

theorem Lexeme.token_moved (l : Lexeme) {p q : Position} {distance : Nat}
    (h : q.offset = p.offset + distance) : (l.token p).Moved distance (l.token q) where
  kind_eq := rfl
  payload_eq := rfl
  start_eq := by
    simp only [Lexeme.token]
    omega
  stop_eq := by
    simp only [Lexeme.token]
    omega

/-- The tokens of a text do not depend on where it starts, apart from their places. -/
theorem placedLexemes_moved {distance : Nat} (taken : Nat) {p q : Position}
    (h : q.offset = p.offset + distance) (text : List Char) :
    List.Forall₂ (Token.Moved distance) ((placedLexemes taken p text).map PlacedLexeme.token)
      ((placedLexemes taken q text).map PlacedLexeme.token) := by
  induction text generalizing taken p q with
  | nil => simp [placedLexemes]
  | cons c rest ih =>
      have hstep : (q.step c).offset = (p.step c).offset + distance := by
        rw [Position.offset_step, Position.offset_step]
        omega
      cases taken with
      | succ taken => exact ih taken hstep
      | zero =>
          rw [placedLexemes, placedLexemes]
          split
          · exact ih _ hstep
          · exact .cons (Lexeme.token_moved _ h) (ih _ hstep)

/-- Between the start of one lexeme and the end of another, a part of the text has the tokens that
the text has there. -/
theorem Lexed.between {p : Position} {text : List Char} {before middle behind : List PlacedLexeme}
    {first last : PlacedLexeme} (h : Lexed p text (before ++ (middle ++ behind)))
    (hfirst : middle.head? = some first) (hlast : middle.getLast? = some last) :
    ∃ front part rest, text = front ++ (part ++ rest) ∧
      first.range.start = p.offset + front.length ∧
      last.range.stop = first.range.start + part.length ∧
      List.Forall₂ (Token.Moved first.range.start)
        ((placedLexemes 0 {} part).map PlacedLexeme.token) (middle.map PlacedLexeme.token) := by
  obtain ⟨more, rfl⟩ := List.head?_eq_some_iff.mp hfirst
  obtain ⟨front, rest, rfl, hstart, _, _, hlexed⟩ := h.cut_before
  obtain ⟨part, behind', hpart, hmiddle, _, hstop⟩ :=
    @Lexed.cut_behind _ _ (first :: more) behind hlexed
  have hplaced : placedLexemes 0 first.start part = first :: more := by
    have hbroken := (hmiddle.broken .off).placedLexemes_eq
    rwa [List.append_nil, placedLexemes, List.append_nil] at hbroken
  have hmoved := @placedLexemes_moved first.range.start 0 {} first.start (Nat.zero_add _).symm part
  rw [hplaced] at hmoved
  refine ⟨front, part, behind', by rw [hpart], ?_, ?_, hmoved⟩
  · rw [PlacedLexeme.range_start, hstart, Position.offset_after]
  · rw [hlast, Position.offset_after] at hstop
    exact hstop.symm

/-- The part of the source that reaches from the `i`-th lexeme to the `j`-th. -/
theorem tokenize_range {source : String} {i j : Nat} {first last : PlacedLexeme} (hle : i ≤ j)
    (hfirst : (lexemesOf source)[i]? = some first) (hlast : (lexemesOf source)[j]? = some last) :
    List.Forall₂ (Token.Moved first.range.start)
      (tokenize (String.ofList ((source.toList.take last.range.stop).drop first.range.start)))
      (((tokenize source).take (j + 1)).drop i) := by
  have hlexed := lexed_placedLexemes {} source.toList
  change Lexed {} source.toList (lexemesOf source) at hlexed
  obtain ⟨hlength, _⟩ := List.getElem?_eq_some_iff.mp hlast
  have hsplit : lexemesOf source = (lexemesOf source).take i ++
      (((lexemesOf source).take (j + 1)).drop i ++ (lexemesOf source).drop (j + 1)) := by
    calc
      lexemesOf source = (lexemesOf source).take (j + 1) ++ (lexemesOf source).drop (j + 1) :=
        (List.take_append_drop _ _).symm
      _ = ((lexemesOf source).take (j + 1)).take i ++ ((lexemesOf source).take (j + 1)).drop i ++
          (lexemesOf source).drop (j + 1) := by rw [List.take_append_drop i]
      _ = _ := by rw [List.take_take, Nat.min_eq_left (by omega), List.append_assoc]
  have hhead : (((lexemesOf source).take (j + 1)).drop i).head? = some first := by
    rw [List.head?_drop, List.getElem?_take_of_lt (by omega), hfirst]
  have hgetLast : (((lexemesOf source).take (j + 1)).drop i).getLast? = some last := by
    rw [List.getLast?_drop, if_neg (by rw [List.length_take]; omega), List.getLast?_take]
    simp [hlast]
  rw [hsplit] at hlexed
  obtain ⟨front, part, rest, htext, hstart, hstop, hmoved⟩ := hlexed.between hhead hgetLast
  have hpart : (source.toList.take last.range.stop).drop first.range.start = part := by
    rw [Nat.zero_add] at hstart
    rw [htext, hstop, hstart, ← List.append_assoc, ← List.length_append, List.take_left,
      List.drop_left]
  rw [hpart, tokenize, lexemesOf, String.toList_ofList]
  rwa [List.map_drop, List.map_take] at hmoved

/-- Tokenizing is local: from the start of any lexeme to the end of any that is not before it, the
source has these tokens on its own, counted from there, and so has each lexeme, flawed or not. -/
theorem tokenize_is_local (source : String) {i j : Nat} {first last : PlacedLexeme} (hle : i ≤ j)
    (hfirst : (lexemesOf source)[i]? = some first) (hlast : (lexemesOf source)[j]? = some last) :
    List.Forall₂ (Token.Moved first.range.start)
      (tokenize (String.ofList ((source.toList.take last.range.stop).drop first.range.start)))
      (((tokenize source).take (j + 1)).drop i) ∧
    ∃ t, tokenize (String.ofList (first.range.slice source.toList)) = [t] ∧
      t.Moved first.range.start first.token := by
  refine ⟨tokenize_range hle hfirst hlast, ?_⟩
  have halone := tokenize_range (Nat.le_refl i) hfirst hfirst
  have hone : ((tokenize source).take (i + 1)).drop i = [first.token] := by
    have hat : (tokenize source)[i]? = some first.token := by simp [tokenize, hfirst]
    obtain ⟨hlt, hget⟩ := List.getElem?_eq_some_iff.mp hat
    rw [List.drop_take, Nat.add_sub_cancel_left, List.drop_eq_getElem_cons hlt, hget]
    rfl
  rw [hone, List.drop_take] at halone
  obtain ⟨t, ts, hmoved, hnil, htokens⟩ := List.forall₂_cons_right_iff.mp halone
  rw [List.forall₂_nil_right_iff.mp hnil] at htokens
  exact ⟨t, htokens, hmoved⟩

/-- An open string with an escape that means nothing, and `2..` behind its line, of which `.` could
start a fraction if a digit followed. -/
theorem tokenize_is_local_line :
    ∃ first last, (lexemesOf "\"\\q\n2..x")[0]? = some first ∧
      (lexemesOf "\"\\q\n2..x")[2]? = some last ∧ last.range.stop = 7 ∧
      List.Forall₂ (Token.Moved first.range.start) (tokenize "\"\\q\n2..")
        (((tokenize "\"\\q\n2..x").take 3).drop 0) := by
  refine ⟨_, _, rfl, rfl, rfl, ?_⟩
  exact (tokenize_is_local "\"\\q\n2..x" (Nat.zero_le 2) rfl rfl).1

end Glass
