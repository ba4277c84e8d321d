import Glass.Lexeme

/-!
What one lexeme takes. However the text goes on, a lexeme is a part of it that starts where the text
does, holds at least one character and no line feed, and, an escape without meaning apart, gives its
token all it takes.
-/

namespace Glass

/-- The parts of a lexeme fit together. -/
structure Lexeme.Formed (l : Lexeme) : Prop where
  nonempty : l.source ≠ []
  one_line : '\n' ∉ l.source
  covered : l.kind ≠ .flaw .invalidEscape → l.skip = 0 ∧ l.width = l.source.length
  escaped : l.kind = .flaw .invalidEscape →
    0 < l.skip ∧ 0 < l.width ∧ l.skip + l.width ≤ l.source.length
  spelled : l.kind ≠ .number → l.kind ≠ .string →
    l.payload = .text (String.ofList ((l.source.drop l.skip).take l.width))
  numeric : l.kind = .number → ∃ x, l.payload = .number x
  textual : l.kind ≠ .number → ∃ text, l.payload = .text text

theorem Lexeme.Formed.width_le {l : Lexeme} (h : l.Formed) :
    l.skip + l.width ≤ l.source.length := by
  by_cases hkind : l.kind = .flaw .invalidEscape
  · exact (h.escaped hkind).2.2
  · obtain ⟨hskip, hwidth⟩ := h.covered hkind
    omega

theorem Lexeme.Formed.width_pos {l : Lexeme} (h : l.Formed) : 0 < l.width := by
  by_cases hkind : l.kind = .flaw .invalidEscape
  · exact (h.escaped hkind).2.1
  · rw [(h.covered hkind).2]
    exact List.length_pos_iff.mpr h.nonempty

/-- The text starts with the part, and the part lies on one line. -/
structure Leads (part text : List Char) : Prop where
  isPrefix : part <+: text
  one_line : '\n' ∉ part

theorem Leads.nil (text : List Char) : Leads [] text := ⟨List.nil_prefix, by simp⟩

theorem Leads.cons {c : Char} {part text : List Char} (hc : c ≠ '\n') (h : Leads part text) :
    Leads (c :: part) (c :: text) where
  isPrefix := List.cons_prefix_cons.mpr ⟨rfl, h.isPrefix⟩
  one_line := List.not_mem_cons_of_ne_of_not_mem hc.symm h.one_line

theorem Leads.append {first second text : List Char} (hfirst : Leads first text)
    (hsecond : Leads second (text.drop first.length)) : Leads (first ++ second) text := by
  obtain ⟨⟨rest, rfl⟩, hline⟩ := hfirst
  obtain ⟨hleading, hline'⟩ := hsecond
  rw [List.drop_left] at hleading
  refine ⟨(List.prefix_append_right_inj first).mpr hleading, ?_⟩
  rw [List.mem_append, not_or]
  exact ⟨hline, hline'⟩

theorem leads_takeWhile {p : Char → Bool} (hp : p '\n' = false) (text : List Char) :
    Leads (text.takeWhile p) text := by
  refine ⟨List.takeWhile_prefix _, ?_⟩
  intro member
  have hall := List.all_eq_true.mp (List.all_takeWhile (p := p) (l := text)) _ member
  rw [hall] at hp
  cases hp

theorem Lexeme.formed_verbatim {kind : Kind} {source : List Char} (hnonempty : source ≠ [])
    (hline : '\n' ∉ source) (hescape : kind ≠ .flaw .invalidEscape) (hnumber : kind ≠ .number) :
    (Lexeme.verbatim kind source).Formed where
  nonempty := hnonempty
  one_line := hline
  covered := fun _ => ⟨rfl, rfl⟩
  escaped := fun h => absurd h hescape
  spelled := fun _ _ => by simp [Lexeme.verbatim, Lexeme.whole]
  numeric := fun h => absurd h hnumber
  textual := fun _ => ⟨_, rfl⟩

namespace NumberLiteral

theorem leads_fractionPart (text : List Char) : Leads (fractionPart text) text := by
  unfold fractionPart
  split
  · dsimp only
    split
    · exact .nil _
    · exact .cons (by decide) (leads_takeWhile rfl _)
  · exact .nil _

theorem leads_signPart (text : List Char) : Leads (signPart text) text := by
  unfold signPart
  split
  · exact .cons (by decide) (.nil _)
  · exact .cons (by decide) (.nil _)
  · exact .nil _

theorem leads_exponentPart (text : List Char) : Leads (exponentPart text) text := by
  unfold exponentPart
  split
  · rename_i mark rest
    split
    · rename_i hmark
      have hline : mark ≠ '\n' := by
        rcases hmark with rfl | rfl <;> decide
      dsimp only
      split
      · exact .nil _
      · exact .cons hline ((leads_signPart rest).append (leads_takeWhile rfl _))
    · exact .nil _
  · exact .nil _

theorem leads_readDecimal (text : List Char) : Leads (readDecimal text).source text := by
  have hwhole : Leads (text.takeWhile Char.isDigit) text := leads_takeWhile rfl text
  have hfraction := hwhole.append (leads_fractionPart _)
  apply hfraction.append
  rw [List.length_append]
  exact leads_exponentPart _

/-- A literal that names its base is a zero, the letter and digits. -/
theorem leads_readBased? {text : List Char} {literal : NumberLiteral}
    (h : readBased? text = some literal) :
    literal.source ≠ [] ∧ Leads literal.source text := by
  unfold readBased? at h
  split at h
  · rename_i letter rest
    split at h
    · cases h
    · rename_i base hbase
      have hletter : letter ≠ '\n' := by
        rintro rfl
        cases hbase
      have hdigit : base.isDigit '\n' = false := by cases base <;> decide
      dsimp only at h
      split at h
      · cases h
      · cases h
        exact ⟨by simp, .cons (by decide) (.cons hletter (leads_takeWhile hdigit rest))⟩
  · cases h

/-- Where a digit stands, a number literal is read that starts there. -/
theorem leads_read {c : Char} (rest : List Char) (hdigit : c.isDigit = true) :
    (read (c :: rest)).source ≠ [] ∧ Leads (read (c :: rest)).source (c :: rest) := by
  unfold read
  cases hbased : readBased? (c :: rest) with
  | some literal => exact leads_readBased? hbased
  | none => exact ⟨by simp [readDecimal, hdigit], leads_readDecimal _⟩

end NumberLiteral

/-- Up to its end, quote included, a string literal is read as it stands. -/
theorem StringBody.leads_read (text : List Char) : Leads (read text).source ('"' :: text) := by
  unfold StringBody.source
  apply Leads.cons (by decide)
  fun_induction StringBody.read text with
  | case1 => exact .nil _
  | case2 => exact .cons (by decide) (.nil _)
  | case3 => exact .nil _
  | case4 => exact .cons (by decide) (.nil _)
  | case5 => exact .cons (by decide) (.nil _)
  | case6 c rest hnewline ih => exact .cons (by decide) (.cons hnewline ih)
  | case7 c rest _ hnewline _ _ _ ih => exact .cons hnewline ih

/-- The first escape without meaning stands behind all that come before it. -/
theorem StringBody.parts_of_fault {body : StringBody} {part : StringPart}
    (h : body.fault? = some part) : ∃ rest, body.parts = body.sound ++ part :: rest := by
  obtain ⟨hpart, before, rest, hparts, hbefore⟩ := List.find?_eq_some_iff_append.mp h
  refine ⟨rest, ?_⟩
  have hmeant : ∀ other ∈ before, other.value?.isSome = true := by
    intro other member
    simpa using hbefore other member
  have hfault : part.value?.isSome = false := by simpa using hpart
  rw [StringBody.sound, hparts, List.takeWhile_append_of_pos hmeant, List.takeWhile_cons, hfault]
  simp

theorem StringPart.source_ne_nil (part : StringPart) : part.source ≠ [] := by
  cases part <;> simp [StringPart.source]

theorem Lexeme.formed_ofString (text : List Char) : (Lexeme.ofString (.read text)).Formed := by
  have hline := (StringBody.leads_read text).one_line
  generalize StringBody.read text = body at hline
  unfold Lexeme.ofString
  split
  · rename_i part hfault
    obtain ⟨rest, hparts⟩ := StringBody.parts_of_fault hfault
    have hwidth := List.length_pos_iff.mpr part.source_ne_nil
    have hsource : body.source = '"' :: (body.sound.flatMap StringPart.source ++ (part.source ++
        (rest.flatMap StringPart.source ++ if body.closed then ['"'] else []))) := by
      simp [StringBody.source, hparts]
    have hskip : 0 < 1 + (body.sound.flatMap StringPart.source).length :=
      Nat.add_pos_left Nat.one_pos _
    refine ⟨by simp [hsource], hline, fun h => absurd rfl h, fun _ => ⟨hskip, hwidth, ?_⟩,
      fun _ _ => ?_, nofun, fun _ => ⟨_, rfl⟩⟩
    · simp only [hsource, List.length_cons, List.length_append]
      omega
    · rw [hsource, Nat.add_comm 1, List.drop_succ_cons, List.drop_left, List.take_left]
  · split
    · exact ⟨by simp [Lexeme.whole, StringBody.source], hline, fun _ => ⟨rfl, rfl⟩, nofun,
        fun _ h => absurd rfl h, nofun, fun _ => ⟨_, rfl⟩⟩
    · exact Lexeme.formed_verbatim (by simp [StringBody.source]) hline (by decide) (by decide)

theorem Lexeme.source_ofString (body : StringBody) :
    (Lexeme.ofString body).source = body.source := by
  unfold Lexeme.ofString
  split
  · rfl
  · split <;> rfl

theorem Symbol.spelling_formed (s : Symbol) :
    s.spelling.toList ≠ [] ∧ '\n' ∉ s.spelling.toList := by
  cases s <;> decide

theorem Symbol.isPrefix_of_atFront? {text : List Char} {s : Symbol}
    (h : Symbol.atFront? text = some s) : s.spelling.toList <+: text := by
  have hleading := List.find?_some h
  exact List.isPrefixOf_iff_prefix.mp hleading

theorem isWordChar_of_isWordStart {c : Char} (h : isWordStart c = true) : isWordChar c = true := by
  unfold isWordStart at h
  unfold isWordChar Char.isAlphanum
  rw [Bool.or_eq_true] at h ⊢
  exact h.imp_left fun halpha => by rw [halpha, Bool.true_or]

/-- Away from trivia a lexeme is scanned that starts where the text does. -/
theorem Lexeme.scan_formed {c : Char} (rest : List Char) (hline : c ≠ '\n') :
    (Lexeme.scan (c :: rest)).Formed ∧ (Lexeme.scan (c :: rest)).source <+: c :: rest := by
  rw [Lexeme.scan]
  split
  · rename_i hquote
    subst hquote
    rw [Lexeme.source_ofString]
    exact ⟨Lexeme.formed_ofString rest, (StringBody.leads_read rest).isPrefix⟩
  split
  · rename_i hdigit
    obtain ⟨hnonempty, hleads⟩ := NumberLiteral.leads_read rest hdigit
    exact ⟨⟨hnonempty, hleads.one_line, fun _ => ⟨rfl, rfl⟩, nofun, fun h => absurd rfl h,
      fun _ => ⟨_, rfl⟩, fun h => absurd rfl h⟩, hleads.isPrefix⟩
  split
  · rename_i hword
    have hleads := leads_takeWhile (p := isWordChar) (by decide) (c :: rest)
    have hnonempty : (c :: rest).takeWhile isWordChar ≠ [] := by
      simp [isWordChar_of_isWordStart hword]
    unfold Lexeme.ofWord
    split <;>
      exact ⟨Lexeme.formed_verbatim hnonempty hleads.one_line (by simp) (by simp), hleads.isPrefix⟩
  split
  · rename_i s hsymbol
    obtain ⟨hnonempty, hspelling⟩ := s.spelling_formed
    exact ⟨Lexeme.formed_verbatim hnonempty hspelling (by simp) (by simp),
      Symbol.isPrefix_of_atFront? hsymbol⟩
  · exact ⟨Lexeme.formed_verbatim (by simp) (by simpa using hline.symm) (by decide) (by decide),
      by simp [Lexeme.verbatim, Lexeme.whole]⟩

end Glass
