import Glass.Proofs.LexemeLocality
import Glass.Proofs.ParseFaults

/-!
What a message quotes as found. The text of a token is trimmed before it is quoted, but only an
unknown token can lose anything: the texts of all classes start and end with characters that are not
blank, and an unknown token is a single character. It may be a blank that is no whitespace, and then
the quotes are empty.
-/

namespace Glass

/-- The text that the message gives as what was found. -/
def Cause.found? : Cause → Option String
  | .unknownToken found | .unexpectedToken _ _ found => some found
  | _ => none

/-- The messages that quote what was found. -/
inductive QuotesFound (found : String) : String → Prop where
  | unknown : QuotesFound found s!"Unknown token '{found}' encountered"
  | unexpected : QuotesFound found s!"Unexpected token '{found}'"
  | expected (kind : Kind) :
      QuotesFound found s!"Expected '{kind.describe}' but found '{found}' instead"

theorem Cause.quotesFound {cause : Cause} {found : String} (h : cause.found? = some found) :
    QuotesFound found cause.message := by
  cases cause with
  | unknownToken =>
      obtain rfl := Option.some.inj h
      exact .unknown
  | unexpectedToken expected =>
      obtain rfl := Option.some.inj h
      cases expected with
      | none => exact .unexpected
      | some kind => exact .expected kind
  | _ => cases h

section Texts

/-- A text of a class has no blanks around it. -/
theorem LexemeClass.Contains.trimBlanks_eq {cls : LexemeClass} {text : List Char}
    (h : cls.Contains text) : trimBlanks text = text := by
  by_cases hclass : cls = .string
  · subst hclass
    cases h with
    | string =>
        apply trim_of_ends
        · intro c hc
          obtain rfl := Option.some.inj hc
          rfl
        · intro c hc
          rw [← List.cons_append, List.getLast?_concat] at hc
          obtain rfl := Option.some.inj hc
          rfl
  · have hvisible := h.visible hclass
    apply trim_of_ends
    · exact fun c hc => hvisible c (List.mem_of_head? hc)
    · exact fun c hc => hvisible c (List.mem_of_getLast? hc)

variable {source : String} {t : Token}

/-- A token that is no flaw covers a text of a class, and an unknown token covers one character. -/
theorem tokenize_text (h : t ∈ tokenize source) :
    (t.kind.isFlaw = false →
      t.span.slice source.toList ≠ [] ∧
        ∃ cls : LexemeClass, cls.Contains (t.span.slice source.toList)) ∧
    (t.kind = .flaw .unknownToken → ∃ c, t.span.slice source.toList = [c]) := by
  obtain ⟨l, hl, rfl⟩ := List.mem_map.mp h
  obtain ⟨hscan, hformed, hleading⟩ : Lexeme.scan (source.toList.drop l.start.offset) = l.lexeme ∧
      l.lexeme.Formed ∧ l.lexeme.source <+: source.toList.drop l.start.offset :=
    (lexed_placedLexemes {} source.toList).scan_eq rfl l hl
  have hslice := l.slice_token hformed hleading
  obtain ⟨c, rest, htext⟩ : ∃ c rest, source.toList.drop l.start.offset = c :: rest := by
    apply List.exists_cons_of_ne_nil
    intro hempty
    rw [hempty, List.prefix_nil] at hleading
    exact hformed.nonempty hleading
  rw [htext] at hscan
  have hjudged := Lexeme.scan_judged c rest
  change (l.lexeme.kind.isFlaw = false → _) ∧ (l.lexeme.kind = _ → _)
  constructor
  · intro hflaw
    rw [hscan] at hjudged
    rcases hjudged with ⟨hlongest, hgives⟩ | ⟨_, hkind⟩
    · rw [(hslice (hgives.not_flaw _)).2]
      exact ⟨hformed.nonempty, _, hlongest.holds⟩
    · split at hkind
      · rcases hkind with hkind | hkind <;> rw [hkind] at hflaw <;> cases hflaw
      · rw [hkind] at hflaw
        cases hflaw
  · intro hunknown
    refine ⟨c, ?_⟩
    rw [(hslice (by rw [hunknown]; nofun)).2, ← hscan]
    rw [← hscan] at hunknown
    rcases hjudged with ⟨_, hgives⟩ | ⟨_, hkind⟩
    · exact absurd hunknown (hgives.not_flaw _)
    · apply Lexeme.source_of_unknown _ hunknown
      rintro rfl
      rw [if_pos rfl, hunknown] at hkind
      rcases hkind with hkind | hkind <;> cases hkind

/-- The token is unknown and consists of a blank. -/
def Token.IsBlank (source : String) (t : Token) : Prop :=
  t.kind = .flaw .unknownToken ∧ ∃ c, isBlank c = true ∧ t.span.slice source.toList = [c]

/-- Of the tokens that are quoted only unknown blanks lose anything, and these lose all. -/
theorem trimBlanks_slice (h : t ∈ tokenize source)
    (hkind : t.kind.isFlaw = false ∨ t.kind = .flaw .unknownToken) :
    t.IsBlank source ∧ trimBlanks (t.span.slice source.toList) = [] ∨
      ¬t.IsBlank source ∧
        trimBlanks (t.span.slice source.toList) = t.span.slice source.toList := by
  rcases hkind with hflaw | hunknown
  · obtain ⟨_, cls, hcontains⟩ := (tokenize_text h).1 hflaw
    refine Or.inr ⟨?_, hcontains.trimBlanks_eq⟩
    rintro ⟨hunknown, _⟩
    rw [hunknown] at hflaw
    cases hflaw
  · obtain ⟨c, hc⟩ := (tokenize_text h).2 hunknown
    cases hblank : isBlank c with
    | true =>
        refine Or.inl ⟨⟨hunknown, c, hblank, hc⟩, ?_⟩
        rw [hc]
        simp [trimBlanks, trim, trimEnd, hblank]
    | false =>
        refine Or.inr ⟨?_, ?_⟩
        · rintro ⟨_, b, hb, heq⟩
          obtain rfl : c = b := (List.cons.inj (hc.symm.trans heq)).1
          rw [hb] at hblank
          cases hblank
        · rw [hc]
          simp [trimBlanks, trim, trimEnd, hblank]

end Texts

section Reports

variable {source : String} {filename : Option String} {limits : Limits} {d : Diagnostic}
  {found : String}

/-- What parsing quotes is the text of a token that is no flaw or unknown. -/
theorem parseProgram_found (h : parseProgram source filename limits = .error (.diagnostic d))
    (hfound : d.cause.found? = some found) :
    ∃ t ∈ tokenize source, (t.kind.isFlaw = false ∨ t.kind = .flaw .unknownToken) ∧
      found = Diagnostic.quote source t.span ∧ d.source = some source ∧ d.span = some t.span := by
  rcases Parser.program_fails h with hdeep | hend | ⟨t, hmember, s, _, _, hstep, _, hfailure⟩
  · cases hdeep
  · obtain rfl := Failure.diagnostic.inj hend
    cases hfound
  · have houtcome := Parser.State.step_outcome limits.nesting s t
    rw [hstep] at houtcome
    cases houtcome with
    | tooDeep => cases hfailure
    | unsupported =>
        obtain rfl := Failure.diagnostic.inj hfailure
        cases hfound
    | unexpected hflaw =>
        obtain rfl := Failure.diagnostic.inj hfailure
        exact ⟨t, hmember, Or.inl hflaw, (Option.some.inj hfound).symm, rfl, rfl⟩
    | flawed hflaw =>
        obtain rfl := Failure.diagnostic.inj hfailure
        rw [Parser.flawDiagnostic] at hfound ⊢
        split at hfound
        · rename_i hkind
          exact ⟨t, hmember, Or.inr hkind, (Option.some.inj hfound).symm, rfl, rfl⟩
        · cases hfound
        · cases hfound
        · cases hfound

theorem Diagnostic.offendingText_eq_quote {span : Span} (hsource : d.source = some source)
    (hspan : d.span = some span) : d.offendingText = quote source span := by
  rw [offendingText, location?, hsource, hspan]
  rfl

end Reports

/-- Where parsing quotes a token as found, the message and the offending text have just the text of
the token, which is not empty, unless that is an unknown blank: this is trimmed away, and the quotes
are empty. -/
theorem messages_quote_token_unless_blank (source : String) (filename : Option String)
    (limits : Limits) (d : Diagnostic) (found : String)
    (h : parseProgram source filename limits = .error (.diagnostic d))
    (hfound : d.cause.found? = some found) :
    QuotesFound found d.message ∧
      ∃ t ∈ tokenize source, d.span = some t.span ∧ d.offendingText = found ∧
        t.span.slice source.toList ≠ [] ∧
        (found = String.ofList (t.span.slice source.toList) ↔ ¬t.IsBlank source) ∧
        (found = "" ↔ t.IsBlank source) := by
  obtain ⟨t, hmember, hkind, hquote, hsource, hspan⟩ := parseProgram_found h hfound
  refine ⟨Cause.quotesFound hfound, t, hmember, hspan, ?_, ?_⟩
  · rw [hquote, Diagnostic.offendingText_eq_quote hsource hspan]
  have hnonempty : t.span.slice source.toList ≠ [] := by
    rcases hkind with hflaw | hunknown
    · exact ((tokenize_text hmember).1 hflaw).1
    · obtain ⟨c, hc⟩ := (tokenize_text hmember).2 hunknown
      rw [hc]
      exact List.cons_ne_nil c []
  refine ⟨hnonempty, ?_⟩
  rw [hquote, Diagnostic.quote]
  rcases trimBlanks_slice hmember hkind with ⟨hblank, htrim⟩ | ⟨hblank, htrim⟩
  · rw [htrim]
    refine ⟨iff_of_false ?_ (not_not_intro hblank), iff_of_true rfl hblank⟩
    intro hempty
    exact hnonempty (String.ofList_injective hempty).symm
  · rw [htrim]
    refine ⟨iff_of_true rfl hblank, iff_of_false ?_ hblank⟩
    intro hempty
    exact hnonempty (String.ofList_eq_empty_iff.mp hempty)

/-- In `(a b` a name is found where the bracket should be closed. -/
theorem messages_quote_token_unless_blank_bracket :
    let t : Token := ⟨.identifier, .text "b", { start := 3, stop := 4 }, 1, 4⟩
    let d : Diagnostic := .unexpectedToken (some (.symbol .rightParen)) t "(a b" none
    parseProgram "(a b" none {} = .error (.diagnostic d) ∧ d.cause.found? = some "b" ∧
      QuotesFound "b" d.message ∧ d.offendingText = "b" := by
  intro t d
  have hparse : parseProgram "(a b" none {} = .error (.diagnostic d) := rfl
  have hfound : d.cause.found? = some "b" := by decide +kernel
  obtain ⟨hmessage, _, _, _, htext, _⟩ :=
    messages_quote_token_unless_blank "(a b" none {} d _ hparse hfound
  exact ⟨hparse, hfound, hmessage, htext⟩

/-- A no-break space is an unknown token, and the message quotes nothing. -/
theorem message_quotes_nothing_no_break_space :
    let span : Span := { start := 0, stop := 1 }
    let d : Diagnostic := .unknownToken "\u00a0" span none
    parseProgram "\u00a0" none {} = .error (.diagnostic d) ∧
      d.message = "Unknown token '' encountered" ∧ d.offendingText = "" ∧
      span.slice "\u00a0".toList = ['\u00a0'] := by
  intro span d
  exact ⟨rfl, by decide +kernel, by decide +kernel, by decide⟩

end Glass
