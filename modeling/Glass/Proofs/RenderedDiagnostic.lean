import Glass.Proofs.TreePlaces

/-!
What a located diagnostic shows. An offset lies on one line of its text, which reaches from behind the
last line feed before the offset up to the next one, so that a line feed lies on the line it ends. That
line is shown, and under it stand the carets: below the columns that the span covers, or a single one
below its start if the span covers no column of the line. Tabs stay tabs in front of the carets.
-/

namespace Glass

/-- The offset lies on the line from `first` up to `last`: there is no line feed inside, and the line
is bounded by line feeds or by the ends of the text. -/
structure LineAround (text : List Char) (offset first last : Nat) : Prop where
  starts : LineStart text offset first
  le : offset ≤ last
  unbroken : ∀ i, offset ≤ i → i < last → text[i]? ≠ some '\n'
  ends : last = text.length ∨ text[last]? = some '\n'

section Lines

variable {text : List Char} {offset first last : Nat}

theorem LineAround.last_le (h : LineAround text offset first last) : last ≤ text.length := by
  rcases h.ends with hend | hline
  · exact Nat.le_of_eq hend
  · obtain ⟨hlt, _⟩ := List.getElem?_eq_some_iff.mp hline
    exact Nat.le_of_lt hlt

/-- Looking ahead from an offset to the next line feed finds where its line ends. -/
theorem LineAround.lineView_stop (h : LineAround text offset first last) :
    (LineView.ofOffset text offset).stop = last := by
  have hle := h.le
  have hlast := h.last_le
  have hsplit : text.drop offset = (text.drop offset).take (last - offset) ++ text.drop last := by
    have hdrop := List.take_append_drop (last - offset) (text.drop offset)
    rw [List.drop_drop, Nat.add_sub_cancel' hle] at hdrop
    exact hdrop.symm
  have hahead : (text.drop offset).takeWhile (· != '\n') =
      (text.drop offset).take (last - offset) := by
    refine (congrArg _ hsplit).trans (takeWhile_append_eq ?_ ?_)
    · intro c member
      obtain ⟨i, hi⟩ := List.mem_iff_getElem?.mp member
      rw [List.getElem?_take, List.getElem?_drop] at hi
      split at hi
      next hlt =>
        have hbreak := h.unbroken (offset + i) (Nat.le_add_right offset i) (by omega)
        rw [hi] at hbreak
        simpa using hbreak
      next => cases hi
    · intro c hc
      rw [List.head?_drop] at hc
      rcases h.ends with hend | hline
      · rw [hend, List.getElem?_eq_none (Nat.le_refl _)] at hc
        cases hc
      · rw [hline] at hc
        simp [← Option.some.inj hc]
  simp only [LineView.ofOffset, hahead, List.length_take, List.length_drop]
  omega

theorem LineAround.lineView_start (h : LineAround text offset first last) :
    (LineView.ofOffset text offset).start = first :=
  h.starts.lineView_start (Nat.le_trans h.le h.last_le)

theorem LineAround.unique (h : LineAround text offset first last) {first' last' : Nat}
    (h' : LineAround text offset first' last') : first' = first ∧ last' = last :=
  ⟨h'.lineView_start.symm.trans h.lineView_start, h'.lineView_stop.symm.trans h.lineView_stop⟩

theorem Position.marks_after_take (text : List Char) (offset : Nat) :
    (Position.after {} (text.take offset)).Marks text :=
  (Position.marks_start text).after (List.take_prefix offset text)

theorem Position.offset_after_take (hoffset : offset ≤ text.length) :
    (Position.after {} (text.take offset)).offset = offset := by
  rw [Position.offset_after, List.length_take_of_le hoffset, Nat.zero_add]

theorem exists_lineAround (text : List Char) (hoffset : offset ≤ text.length) :
    ∃ first last, LineAround text offset first last := by
  obtain ⟨first, hfirst, _⟩ := (Position.marks_after_take text offset).column_eq
  rw [Position.offset_after_take hoffset] at hfirst
  generalize hahead : (text.drop offset).takeWhile (· != '\n') = ahead
  generalize hrest : (text.drop offset).dropWhile (· != '\n') = rest
  have hsplit : text.drop offset = ahead ++ rest := by
    rw [← hahead, ← hrest, List.takeWhile_append_dropWhile]
  refine ⟨first, offset + ahead.length, hfirst, Nat.le_add_right _ _, ?_, ?_⟩
  · intro i hle hlt hbreak
    obtain ⟨k, rfl⟩ := Nat.exists_eq_add_of_le hle
    rw [← List.getElem?_drop, hsplit, List.getElem?_append_left (by omega)] at hbreak
    have hfeed := List.all_eq_true.mp (hahead ▸ List.all_takeWhile) _ (List.mem_of_getElem? hbreak)
    simp at hfeed
  · have hnext : text[offset + ahead.length]? = rest.head? := by
      rw [← List.getElem?_drop, hsplit, List.getElem?_append_right (Nat.le_refl _), Nat.sub_self,
        List.head?_eq_getElem?]
    have hstop := List.head?_dropWhile_not (· != '\n') (text.drop offset)
    rw [hrest, ← hnext] at hstop
    cases hc : text[offset + ahead.length]? with
    | none =>
        left
        have hlength := congrArg List.length hsplit
        rw [List.getElem?_eq_none_iff] at hc
        rw [List.length_drop, List.length_append] at hlength
        omega
    | some c =>
        right
        rw [hc] at hstop
        simpa using hstop

/-- The line of an offset is one more than the line feeds before it. -/
theorem Position.line_after_take (hoffset : offset ≤ text.length) :
    (Position.after {} (text.take offset)).line = (text.take offset).count '\n' + 1 := by
  rw [(marks_after_take text offset).line_eq, offset_after_take hoffset, Nat.add_comm]

end Lines

/-- The span covers a column of the line from `first` up to `last`. -/
def Span.Covers (span : Span) (first last column : Nat) : Prop :=
  first + column < last ∧ span.start ≤ first + column ∧ first + column < span.stop

/-- What stands in the row below a character in front of the carets. -/
def blankBelow (c : Char) : Char := if c = '\t' then '\t' else ' '

/-- The row under a line that marks the part of a span on it: blank up to where the span starts, with
the tabs of the line, and then carets below the columns that the span covers, or one caret if it
covers none. -/
structure CaretRow (span : Span) (first last : Nat) (line row : List Char) : Prop where
  blank : row.take (span.start - first) = (line.take (span.start - first)).map blankBelow
  carets : ∀ c ∈ row.drop (span.start - first), c = '^'
  covered : (∃ column, span.Covers first last column) →
    ∀ column, row[column]? = some '^' ↔ span.Covers first last column
  bare : (¬∃ column, span.Covers first last column) → row.drop (span.start - first) = ['^']

/-- The columns from `start` up to `stop`, the latter left out, are those that the span covers; if
there are none, both are where the span starts. -/
structure CoveredColumns (span : Span) (first last start stop : Nat) : Prop where
  start_eq : first + start = span.start
  le : start ≤ stop
  covers_iff : ∀ column, span.Covers first last column ↔ start ≤ column ∧ column < stop

namespace LineAround

variable {text : List Char} {span : Span} {first last : Nat}
  (h : LineAround text span.start first last)
include h

theorem coveredColumns :
    CoveredColumns span first last (span.start - first)
      (max (span.start - first) (min span.stop last - first)) := by
  have hfirst := h.starts.le
  have hlast := h.le
  have hspan := span.start_le_stop
  refine ⟨by omega, by omega, fun column => ?_⟩
  rw [Span.Covers]
  omega

theorem length_line : ((text.drop first).take (last - first)).length = last - first := by
  have hlast := h.last_le
  rw [List.length_take, List.length_drop]
  omega

/-- Blanks below the front of the line, and behind them as many carets as columns are covered but at
least one, mark the span. -/
theorem caretRow {start stop : Nat} (hcolumns : CoveredColumns span first last start stop)
    {line : List Char} (hline : line.length = last - first) :
    CaretRow span first last line
      ((line.take start).map blankBelow ++ List.replicate (max 1 (stop - start)) '^') := by
  have hfirst := hcolumns.start_eq
  have hstart : span.start - first = start := by omega
  have hlength : ((line.take start).map blankBelow).length = start := by
    have hlast := h.le
    rw [List.length_map, List.length_take]
    omega
  have hblank (column : Nat) : ((line.take start).map blankBelow)[column]? ≠ some '^' := by
    intro hcaret
    obtain ⟨c, _, hc⟩ := List.mem_map.mp (List.mem_of_getElem? hcaret)
    rw [blankBelow] at hc
    split at hc <;> cases hc
  constructor
  · rw [hstart, List.take_left' hlength]
  · intro c member
    rw [hstart, List.drop_left' hlength] at member
    exact List.eq_of_mem_replicate member
  · rintro ⟨inside, hinside⟩ column
    have hnonempty := (hcolumns.covers_iff inside).mp hinside
    rw [hcolumns.covers_iff, List.getElem?_append, hlength]
    split
    next hbefore => exact iff_of_false (hblank column) (by omega)
    next hbehind =>
      rw [List.getElem?_replicate]
      split
      next hlt => exact iff_of_true rfl (by omega)
      next hge => exact iff_of_false nofun (by omega)
  · intro hnone
    have hempty : ¬start < stop := fun hlt =>
      hnone ⟨start, (hcolumns.covers_iff start).mpr ⟨Nat.le_refl _, hlt⟩⟩
    have hone : max 1 (stop - start) = 1 := by omega
    rw [hstart, List.drop_left' hlength, hone, List.replicate_one]

end LineAround

namespace Diagnostic

variable {source : String} {span : Span} {first last : Nat}

/-- The name that a diagnostic gives its source: the default one for a source without a name. -/
def shownName (filename : Option String) : String :=
  (filename.filter (· ≠ "")).getD "<input>"

/-- What is shown, in terms of the line that the span starts on. -/
theorem render_of_lineAround (h : LineAround source.toList span.start first last) (cause : Cause)
    (filename : Option String) :
    let line := trimEnd (· == '\r') ((source.toList.drop first).take (last - first))
    let start := span.start - first
    let stop := max start (min span.stop last - first)
    let place := Position.after {} (source.toList.take span.start)
    render ⟨cause, some source, some span, filename⟩ =
      "\n".intercalate
        [cause.message, String.ofList line,
          String.ofList ((line.take start).map blankBelow ++
            List.replicate (max 1 (stop - start)) '^'),
          s!"[{shownName filename}(Ln:{place.line}, Col:{start}..{stop})]"] := by
  intro line start stop place
  have hoffset : span.start ≤ source.toList.length := Nat.le_trans h.le h.last_le
  have hnumber : (LineView.ofOffset source.toList span.start).number = place.line := by
    rw [Position.line_after_take hoffset, LineView.ofOffset]
  have hblank : (fun c : Char => if c == '\t' then '\t' else ' ') = blankBelow := by
    funext c
    simp [blankBelow]
  simp only [render, location?, hnumber, h.lineView_start, h.lineView_stop, hblank]
  rcases filename with _ | name
  · rfl
  · by_cases hname : name = ""
    · subst hname
      rfl
    · have hshown : shownName (some name) = name := by simp [shownName, Option.filter, hname]
      rw [hshown]
      split
      next heq => cases heq
      next heq => exact absurd (Option.some.inj heq) hname
      next heq =>
        rw [Option.some.inj heq]
        rfl

end Diagnostic

/-- For a span that lies in its source there is one line that it starts on. If that line does not end
with a carriage return, a located diagnostic shows, joined by line feeds, its message, just this line,
a row with carets below what the span covers of the line, and where that is: under the name of the
source, the number of the line and the columns that are covered. -/
theorem render_points_at_span (source : String) (span : Span) (hstop : span.stop ≤ source.length) :
    ∃ first last, LineAround source.toList span.start first last ∧
      (∀ first' last', LineAround source.toList span.start first' last' →
        first' = first ∧ last' = last) ∧
      let line := (source.toList.drop first).take (last - first)
      let place := Position.after {} (source.toList.take span.start)
      (line.getLast? ≠ some '\r' → ∀ (cause : Cause) (filename : Option String),
        ∃ row start stop,
          Diagnostic.render ⟨cause, some source, some span, filename⟩ =
            "\n".intercalate
              [cause.message, String.ofList line, String.ofList row,
                s!"[{Diagnostic.shownName filename}(Ln:{place.line}, Col:{start}..{stop})]"] ∧
          CaretRow span first last line row ∧ CoveredColumns span first last start stop) := by
  have hoffset : span.start ≤ source.toList.length := by
    rw [String.length_toList]
    exact Nat.le_trans span.start_le_stop hstop
  obtain ⟨first, last, hline⟩ := exists_lineAround source.toList hoffset
  refine ⟨first, last, hline, fun first' last' => hline.unique, ?_⟩
  intro line place hreturn cause filename
  have htrim : trimEnd (· == '\r') line = line := by
    apply trimEnd_of_getLast
    intro c hc
    rw [hc] at hreturn
    simpa using hreturn
  have hrender := Diagnostic.render_of_lineAround hline cause filename
  simp only [line] at htrim
  rw [htrim] at hrender
  exact ⟨_, _, _, hrender, hline.caretRow hline.coveredColumns hline.length_line,
    hline.coveredColumns⟩

/-- A span that runs over two lines is marked on the first, behind a tab. One at the end of a text
that ends with a line feed has an empty line to itself, and one caret. -/
theorem render_points_at_span_lines :
    let across : Span := { start := 3, stop := 7 }
    let behind : Span := { start := 2, stop := 2 }
    let shown (source : String) (span : Span) (filename : Option String) :=
      Diagnostic.render ⟨.general "oops", some source, some span, filename⟩
    let locator (name : String) (start stop : Nat) := s!"[{name}(Ln:{2}, Col:{start}..{stop})]"
    (across.stop ≤ "a\n\tbc\nd".length ∧ LineAround "a\n\tbc\nd".toList across.start 2 5 ∧
      shown "a\n\tbc\nd" across (some "") = "oops\n\tbc\n\t^^\n[<input>(Ln:2, Col:1..3)]" ∧
      ∃ row start stop,
        shown "a\n\tbc\nd" across (some "") =
          "\n".intercalate ["oops", "\tbc", String.ofList row, locator "<input>" start stop] ∧
        CaretRow across 2 5 "\tbc".toList row ∧ CoveredColumns across 2 5 start stop) ∧
    behind.stop ≤ "a\n".length ∧ LineAround "a\n".toList behind.start 2 2 ∧
      shown "a\n" behind (some "main") = "oops\n\n^\n[main(Ln:2, Col:0..0)]" ∧
      ∃ row start stop,
        shown "a\n" behind (some "main") =
          "\n".intercalate ["oops", "", String.ofList row, locator "main" start stop] ∧
        CaretRow behind 2 2 [] row ∧ CoveredColumns behind 2 2 start stop := by
  intro across behind shown locator
  constructor
  · have hstop : across.stop ≤ "a\n\tbc\nd".length := by decide
    have hline : LineAround "a\n\tbc\nd".toList across.start 2 5 := by
      refine ⟨⟨by decide, Or.inr (by decide), fun i hle hlt => ?_⟩, by decide, fun i hle hlt => ?_,
        Or.inr (by decide)⟩
      · obtain rfl : i = 2 := Nat.le_antisymm (Nat.le_of_lt_succ hlt) hle
        decide
      · obtain rfl | rfl : i = 3 ∨ i = 4 := by
          change 3 ≤ i at hle
          omega
        · decide
        · decide
    obtain ⟨first, last, _, hunique, hshown⟩ := render_points_at_span "a\n\tbc\nd" across hstop
    obtain ⟨rfl, rfl⟩ := hunique 2 5 hline
    exact ⟨hstop, hline, by decide +kernel, hshown (by decide) (.general "oops") (some "")⟩
  · have hstop : behind.stop ≤ "a\n".length := by decide
    have hline : LineAround "a\n".toList behind.start 2 2 := by
      refine ⟨⟨by decide, Or.inr (by decide), fun i hle hlt => ?_⟩, by decide, fun i hle hlt => ?_,
        Or.inl (by decide)⟩
      · exact absurd hlt (Nat.not_lt.mpr hle)
      · exact absurd hlt (Nat.not_lt.mpr hle)
    obtain ⟨first, last, _, hunique, hshown⟩ := render_points_at_span "a\n" behind hstop
    obtain ⟨rfl, rfl⟩ := hunique 2 2 hline
    exact ⟨hstop, hline, by decide +kernel, hshown (by decide) (.general "oops") (some "main")⟩

end Glass
