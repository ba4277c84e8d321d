import Glass.Proofs.InnermostPlace
import Glass.Proofs.RenderedDiagnostic
import Glass.Proofs.TokenLocality

/-!
How far the carets reach. What running a program reports lies at the end of its text or starts where a
token does, and no token starts with whitespace, so that the first caret stands below a character that
is shown or just past the end of the line. The line is shown without the carriage returns at its end,
but the carets go on below them: the row is clipped to the shown line exactly if the span covers none
of these.
-/

namespace Glass

section Tokens

theorem StringPart.head_of_fault {part : StringPart} (h : part.value? = none) :
    part.source.head? = some '\\' := by
  cases part with
  | plain => cases h
  | escape => rfl
  | loneBackslash => rfl

/-- A meaningless escape starts with its backslash. -/
theorem Lexeme.backslash_of_escape {body : StringBody}
    (h : (Lexeme.ofString body).kind = .flaw .invalidEscape) :
    ((Lexeme.ofString body).source.drop (Lexeme.ofString body).skip).head? = some '\\' := by
  cases hfault : body.fault? with
  | none =>
      simp only [Lexeme.ofString, hfault] at h
      split at h <;> cases h
  | some part =>
      obtain ⟨rest, hparts⟩ := StringBody.parts_of_fault hfault
      have hpart : part.source.head? = some '\\' := by
        apply StringPart.head_of_fault
        simpa using List.find?_some hfault
      simp only [Lexeme.ofString, hfault, StringBody.source, hparts]
      rw [Nat.add_comm 1, List.cons_append, List.drop_succ_cons, List.flatMap_append,
        List.append_assoc, List.drop_left, List.flatMap_cons, List.append_assoc, List.head?_append,
        hpart]
      rfl

theorem Lexeme.scan_escape {text : List Char}
    (h : (Lexeme.scan text).kind = .flaw .invalidEscape) :
    ∃ rest, Lexeme.scan text = .ofString (.read rest) := by
  cases text with
  | nil => cases h
  | cons c rest =>
      rcases Lexeme.scan_judged c rest with ⟨_, hgives⟩ | ⟨_, hkind⟩
      · exact absurd h (hgives.not_flaw _)
      · split at hkind
        · rename_i hquote
          exact ⟨rest, by rw [Lexeme.scan, if_pos hquote]⟩
        · cases h.symm.trans hkind

/-- Where a token starts there is no whitespace. -/
theorem Lexed.first {text rest : List Char} {p : Position} {lexemes : List PlacedLexeme}
    (h : Lexed p rest lexemes) (hrest : text.drop p.offset = rest) :
    ∀ l ∈ lexemes, ∃ c, text[l.token.span.start]? = some c ∧ isWhitespace c = false := by
  induction h with
  | done => exact List.forall_mem_nil _
  | @lexeme p gap rest l more _ hgap hscan hformed _ ih =>
      have hat : text.drop (p.after gap).offset = l.source ++ rest := drop_offset_after hrest
      have hbehind : text.drop ((p.after gap).after l.source).offset = rest := drop_offset_after hat
      refine List.forall_mem_cons.mpr ⟨?_, ih hbehind⟩
      have hwidth := hformed.width_le
      have hpositive := hformed.width_pos
      have hstart : text[(p.after gap).offset + l.skip]? = (l.source.drop l.skip).head? := by
        rw [← List.getElem?_drop, hat, List.getElem?_append_left (by omega), List.head?_drop]
      change ∃ c, text[(p.after gap).offset + l.skip]? = some c ∧ isWhitespace c = false
      rw [hstart]
      by_cases hkind : l.kind = .flaw .invalidEscape
      · obtain ⟨body, hbody⟩ := Lexeme.scan_escape (by rw [hscan]; exact hkind)
        rw [hscan] at hbody
        rw [hbody] at hkind ⊢
        exact ⟨'\\', Lexeme.backslash_of_escape hkind, rfl⟩
      · obtain ⟨c, tail, hsource⟩ := List.exists_cons_of_ne_nil hformed.nonempty
        have htrivia := triviaLength_drop false (gap ++ (l.source ++ rest))
        rw [hgap, List.drop_left, hsource, List.cons_append] at htrivia
        rw [(hformed.covered hkind).1, List.drop_zero, hsource]
        exact ⟨c, rfl, (triviaLength_cons_eq_zero_iff.mp htrivia).1⟩

theorem tokenize_first (source : String) {t : Token} (h : t ∈ tokenize source) :
    ∃ c, source.toList[t.span.start]? = some c ∧ isWhitespace c = false := by
  obtain ⟨l, hl, rfl⟩ := List.mem_map.mp h
  exact (lexed_placedLexemes {} source.toList).first rfl l hl

end Tokens

/-- The span lies at the end of the source, or it holds at least one character and starts where a
token does. -/
inductive Span.PointsAt (source : String) (span : Span) : Prop where
  | finish : span.start = source.length → span.stop = source.length → PointsAt source span
  | token {t : Token} : t ∈ tokenize source → span.start = t.span.start →
      span.start < span.stop → PointsAt source span

namespace Tree

theorem mem_parts_self {t : Tree} {span : Span} (h : t.span? = some span) : t ∈ t.parts := by
  cases t with
  | node => exact List.mem_cons_self
  | token => exact List.mem_singleton_self _
  | _ => cases h

theorem mem_parts_of_operand {t child part : Tree} (h : child ∈ t.operands)
    (hpart : part ∈ child.parts) : part ∈ t.parts := by
  have hchild {label : Label} {children : List Tree} {place : Option Place}
      (member : child ∈ children) : part ∈ (node label children place).parts :=
    List.mem_cons_of_mem _ (mem_partsOfAll.mpr ⟨child, member, hpart⟩)
  unfold operands at h
  split at h
  · split at h
    · exact hchild (List.mem_cons_of_mem _ h)
    · cases h
  · split at h
    · exact hchild (List.mem_cons_of_mem _ h)
    · cases h
  · exact hchild h
  · cases h

theorem exists_of_innermostSpan? {path : List Tree} {span : Span}
    (h : innermostSpan? path = some span) : ∃ t ∈ path, t.span? = some span :=
  List.mem_filterMap.mp (List.mem_of_getLast? h)

end Tree

theorem FailurePath.mem_parts {value : Tree → Except Failure Operand} {t : Tree} {path : List Tree}
    (h : FailurePath value t path) {part : Tree} (member : part ∈ path) {span : Span}
    (hspan : part.span? = some span) : part ∈ t.parts := by
  induction h with
  | own =>
      obtain rfl := List.mem_singleton.mp member
      exact Tree.mem_parts_self hspan
  | @operand _ child _ before behind _ _ hsplit _ _ ih =>
      rcases List.mem_cons.mp member with rfl | member
      · exact Tree.mem_parts_self hspan
      · apply Tree.mem_parts_of_operand _ (ih member)
        rw [hsplit]
        exact List.mem_append_right before List.mem_cons_self

section Reports

variable {source : String} {limits : Limits} {d : Diagnostic}

/-- What parsing reports points at the end of the text or at a token. -/
theorem parseProgram_pointsAt {filename : Option String}
    (h : parseProgram source filename limits = .error (.diagnostic d)) :
    d.source = some source ∧ ∃ span, d.span = some span ∧ span.PointsAt source := by
  rcases Parser.program_fails h with hdeep | hend | ⟨t, hmember, _, _, _, _, hblames, hfailure⟩
  · cases hdeep
  · obtain rfl := Failure.diagnostic.inj hend
    exact ⟨rfl, _, rfl, .finish rfl rfl⟩
  · obtain ⟨cause, _, hdiagnostic⟩ :=
      Parser.failure_of_blames (.ofText source filename) hblames
    obtain rfl := Failure.diagnostic.inj (hdiagnostic.symm.trans hfailure)
    exact ⟨rfl, _, rfl, .token hmember rfl ((inOrder_tokenize source).nonempty t hmember)⟩

/-- What evaluating the tree of a text reports points at a token, if it points anywhere. -/
theorem evaluate_pointsAt {filename parsedAs : Option String} {bindings : Entries Value}
    {tree : Tree} (hparse : parseProgram source parsedAs limits = .ok tree)
    (h : evaluate tree (some source) filename bindings limits = .error (.diagnostic d))
    (hlocated : d.isLocated = true) :
    d.source = some source ∧ ∃ span, d.span = some span ∧ span.PointsAt source := by
  obtain ⟨path, cause, hpath, rfl⟩ := Tree.eval_eq_diagnostic (Nat.le_refl limits.evaluation) h
  cases hspan : Tree.innermostSpan? path with
  | none =>
      rw [hspan] at hlocated
      cases hlocated
  | some span =>
      refine ⟨rfl, span, rfl, ?_⟩
      obtain ⟨part, member, hpart⟩ := Tree.exists_of_innermostSpan? hspan
      have hstands := (program_of_parseProgram hparse).stands (inOrder_tokenize source)
      obtain ⟨first, hfirst, _, _, span', hplace, hstart, _, hpositive⟩ :=
        (hstands.parts part (hpath.mem_parts member hpart)).1
      obtain rfl : span' = span :=
        Option.some.inj ((Tree.span?_of_place hplace).symm.trans hpart)
      exact .token hfirst hstart hpositive

/-- A located diagnostic of a run points at the end of the text or at a token. -/
theorem run_pointsAt {filename : String} {bindings : Entries Value}
    (h : run source filename bindings limits = .error (.diagnostic d))
    (hlocated : d.isLocated = true) :
    d.source = some source ∧ ∃ span, d.span = some span ∧ span.PointsAt source := by
  have hreported {failure : Failure} (hfailure : failure.reported = .diagnostic d) :
      failure = .diagnostic d := by
    cases failure with
    | tooDeep =>
        obtain rfl := Failure.diagnostic.inj hfailure
        cases hlocated
    | _ => exact hfailure
  unfold run at h
  cases hparse : parseProgram source (some filename) limits with
  | error failure =>
      rw [hparse] at h
      rw [hreported (Except.error.inj h)] at hparse
      exact parseProgram_pointsAt hparse
  | ok tree =>
      rw [hparse] at h
      change (evaluate tree _ _ bindings limits >>= Operand.toValue).mapError
        Failure.reported = _ at h
      cases hevaluate : evaluate tree (some source) (some filename) bindings limits with
      | ok a =>
          obtain ⟨v, rfl⟩ := (parseProgram_eq_ok hparse).1.givesValue _ _ a hevaluate
          rw [hevaluate] at h
          cases h
      | error failure =>
          rw [hevaluate] at h
          rw [hreported (Except.error.inj h)] at hevaluate
          exact evaluate_pointsAt hparse hevaluate hlocated

end Reports

section Rows

/-- The carets are clipped to the line: the row below it is not longer, or it is longer by one caret
that stands just past the end, and the span covers no character of the line. -/
inductive ClippedRow (span : Span) (first : Nat) (line row : List Char) : Prop where
  | inside : row.length ≤ line.length → ClippedRow span first line row
  | past : row = line.map blankBelow ++ ['^'] →
      (∀ column, ¬span.Covers first (first + line.length) column) → ClippedRow span first line row

variable {source : String} {span : Span} {first last : Nat}

theorem LineAround.length_shown_le (h : LineAround source.toList span.start first last) :
    (trimEnd (· == '\r') ((source.toList.drop first).take (last - first))).length ≤ last - first := by
  obtain ⟨k, hsplit⟩ :=
    eq_trimEnd_append '\r' ((source.toList.drop first).take (last - first))
  have hlength := congrArg List.length hsplit
  rw [h.length_line, List.length_append] at hlength
  omega

/-- On the line that a token starts on there is a shown character below which its first caret
stands. -/
theorem LineAround.start_lt_shown (h : LineAround source.toList span.start first last) {t : Token}
    (ht : t ∈ tokenize source) (hstart : span.start = t.span.start) :
    span.start - first <
      (trimEnd (· == '\r') ((source.toList.drop first).take (last - first))).length := by
  obtain ⟨c, hc, hshown⟩ := tokenize_first source ht
  rw [← hstart] at hc
  have hfirst := h.starts.le
  have hlast : span.start < last := by
    apply Nat.lt_of_le_of_ne h.le
    rintro rfl
    rcases h.ends with hend | hfeed
    · rw [hend, List.getElem?_eq_none (Nat.le_refl _)] at hc
      cases hc
    · obtain rfl := Option.some.inj (hc.symm.trans hfeed)
      cases hshown
  have hat : ((source.toList.drop first).take (last - first))[span.start - first]? = some c := by
    rw [List.getElem?_take_of_lt (by omega), List.getElem?_drop, Nat.add_sub_cancel' hfirst, hc]
  obtain ⟨k, hsplit⟩ :=
    eq_trimEnd_append '\r' ((source.toList.drop first).take (last - first))
  apply Nat.lt_of_not_le
  intro hreturn
  rw [hsplit, List.getElem?_append_right hreturn] at hat
  obtain rfl := List.eq_of_mem_replicate (List.mem_of_getElem? hat)
  cases hshown

/-- The carets are clipped to the shown line exactly if the span covers none of the carriage returns
behind it. -/
theorem LineAround.clippedRow_iff (h : LineAround source.toList span.start first last)
    (hpoints : span.PointsAt source) :
    let line := trimEnd (· == '\r') ((source.toList.drop first).take (last - first))
    let start := span.start - first
    let stop := max start (min span.stop last - first)
    ClippedRow span first line
        ((line.take start).map blankBelow ++ List.replicate (max 1 (stop - start)) '^') ↔
      ∀ column, span.Covers first last column → column < line.length := by
  intro line start stop
  have hfirst := h.starts.le
  have hlast := h.le
  have hcolumns := h.coveredColumns
  have hle : start ≤ stop := hcolumns.le
  have hline : line.length ≤ last - first := h.length_shown_le
  cases hpoints with
  | finish hstart hstop =>
      have hend : last = span.start := by
        apply Nat.le_antisymm _ hlast
        rw [hstart, ← String.length_toList]
        exact h.last_le
      have hempty : stop = start := by omega
      have hshort : line.length ≤ start := by
        rw [hend] at hline
        exact hline
      refine iff_of_true (.past ?_ fun column hcover => ?_) fun column hcover => ?_
      · rw [hempty, Nat.sub_self, List.take_of_length_le hshort]
        rfl
      · obtain ⟨_, hfrom, hupto⟩ := hcover
        omega
      · have hinside := (hcolumns.covers_iff column).mp hcover
        omega
  | token ht hstart hpositive =>
      have hshown : start < line.length := h.start_lt_shown ht hstart
      have hlt : start < stop := by omega
      have hlength : ((line.take start).map blankBelow ++
          List.replicate (max 1 (stop - start)) '^').length = stop := by
        rw [List.length_append, List.length_map, List.length_take, List.length_replicate]
        omega
      constructor
      · intro hclipped column hcover
        have hinside := (hcolumns.covers_iff column).mp hcover
        cases hclipped with
        | inside hrow =>
            rw [hlength] at hrow
            exact Nat.lt_of_lt_of_le hinside.2 hrow
        | past _ huncovered =>
            refine absurd ?_ (huncovered start)
            exact ⟨by omega, by omega, by omega⟩
      · intro hinside
        apply ClippedRow.inside
        rw [hlength]
        have hbehind := hinside (stop - 1) ((hcolumns.covers_iff _).mpr ⟨by omega, by omega⟩)
        omega

end Rows

/-- Below the line that a located diagnostic of a run points at, the carets are clipped to what is
shown of the line, or one stands just past its end where nothing shown is covered. This fails for
exactly those spans that cover a carriage return behind the shown line, as those of texts that are
not closed and of nodes that go on in the next line can. -/
theorem carets_clipped_unless_return_covered (source filename : String) (bindings : Entries Value)
    (limits : Limits) (d : Diagnostic)
    (h : run source filename bindings limits = .error (.diagnostic d))
    (hlocated : d.isLocated = true) :
    ∃ span first last start stop, d.span = some span ∧
      LineAround source.toList span.start first last ∧ CoveredColumns span first last start stop ∧
      let line := trimEnd (· == '\r') ((source.toList.drop first).take (last - first))
      let row := (line.take start).map blankBelow ++ List.replicate (max 1 (stop - start)) '^'
      let place := Position.after {} (source.toList.take span.start)
      d.render =
        "\n".intercalate
          [d.cause.message, String.ofList line, String.ofList row,
            s!"[{Diagnostic.shownName d.filename}(Ln:{place.line}, Col:{start}..{stop})]"] ∧
      (ClippedRow span first line row ↔
        ∀ column, span.Covers first last column → column < line.length) := by
  obtain ⟨hsource, span, hspan, hpoints⟩ := run_pointsAt h hlocated
  obtain ⟨cause, _, _, name⟩ := d
  obtain rfl : _ = some source := hsource
  obtain rfl : _ = some span := hspan
  have hoffset : span.start ≤ source.toList.length := by
    cases hpoints with
    | finish hstart => exact Nat.le_of_eq hstart
    | token ht hstart =>
        obtain ⟨_, hc, _⟩ := tokenize_first source ht
        rw [hstart]
        exact Nat.le_of_lt (List.getElem?_eq_some_iff.mp hc).1
  obtain ⟨first, last, hline⟩ := exists_lineAround source.toList hoffset
  exact ⟨span, first, last, _, _, rfl, hline, hline.coveredColumns,
    Diagnostic.render_of_lineAround hline cause name, hline.clippedRow_iff hpoints⟩

/-- A name in front of a carriage return is marked by itself. -/
theorem carets_clipped_unless_return_covered_name :
    let span : Span := ⟨0, 1, Nat.le_succ 0⟩
    let d : Diagnostic := ⟨.undefinedName "x", some "x\r\n", some span, some "main"⟩
    run "x\r\n" "main" [] {} = .error (.diagnostic d) ∧ d.isLocated = true ∧
      LineAround "x\r\n".toList span.start 0 2 ∧ ClippedRow span 0 ['x'] ['^'] := by
  intro span d
  have hrun : run "x\r\n" "main" [] {} = .error (.diagnostic d) := rfl
  have hline : LineAround "x\r\n".toList span.start 0 2 := by
    refine ⟨⟨Nat.le_refl 0, Or.inl rfl, fun i hle hlt => ?_⟩, by decide, fun i hle hlt => ?_,
      Or.inr rfl⟩
    · exact absurd hlt (Nat.not_lt.mpr hle)
    · obtain rfl | rfl : i = 0 ∨ i = 1 := by omega
      · decide
      · decide
  obtain ⟨_, first, last, start, stop, hspan, hline', hcolumns, _, hclipped⟩ :=
    carets_clipped_unless_return_covered "x\r\n" "main" [] {} d hrun rfl
  obtain rfl := Option.some.inj hspan
  obtain ⟨rfl, rfl⟩ := hline.unique hline'
  have hstart := hcolumns.start_eq
  have hcovered := hcolumns.covers_iff 0
  have huncovered := hcolumns.covers_iff 1
  simp only [Span.Covers, span] at hstart hcovered huncovered
  obtain rfl : start = 0 := by omega
  obtain rfl : stop = 1 := by omega
  refine ⟨hrun, rfl, hline, hclipped.mpr fun column hcover => ?_⟩
  have hbefore : 0 + column < 1 := hcover.2.2
  rw [Nat.zero_add] at hbefore
  exact hbefore

/-- A text that is not closed takes in the carriage return at the end of its line, and there is a
caret too many. -/
theorem carets_overrun_unclosed_text :
    let span : Span := { start := 0, stop := 5 }
    let d : Diagnostic := ⟨.unclosedString, some "\"abc\r\n", some span, some "<input>"⟩
    run "\"abc\r\n" "<input>" [] {} = .error (.diagnostic d) ∧ d.isLocated = true ∧
      d.render = "Unclosed string literal\n\"abc\n^^^^^\n[<input>(Ln:1, Col:0..5)]" ∧
      ¬ClippedRow span 0 "\"abc".toList "^^^^^".toList := by
  intro span d
  refine ⟨rfl, rfl, by decide +kernel, fun hclipped => ?_⟩
  cases hclipped with
  | inside hlength => exact absurd hlength (by decide)
  | past hrow => exact absurd hrow (by decide)

end Glass
