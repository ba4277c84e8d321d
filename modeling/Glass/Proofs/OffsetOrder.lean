import Mathlib.Algebra.GroupWithZero.Nat
import Mathlib.Data.Prod.Lex
import Glass.Proofs.RenderedDiagnostic

/-!
Lines and columns order the offsets of a text. Each character leads to a later line, or to a later
column of the same one, so that no two offsets are reported under the same line and column. A scanner
that is moved forward counts on the way what a diagnostic finds by looking back from its offset,
whatever the moves are that led there.
-/

namespace Glass

namespace Position

/-- The order in which lines and columns name places: by line, and on one line by column. -/
def rank (p : Position) : Nat ×ₗ Nat := toLex (p.line, p.column)

theorem rank_lt_step (p : Position) (c : Char) : p.rank < (p.step c).rank := by
  unfold rank Position.step
  rw [Prod.Lex.toLex_lt_toLex]
  split
  · exact Or.inl (Nat.lt_succ_self p.line)
  · exact Or.inr ⟨rfl, Nat.lt_succ_self p.column⟩

theorem rank_le_after (p : Position) (text : List Char) : p.rank ≤ (p.after text).rank := by
  induction text generalizing p with
  | nil => exact le_refl _
  | cons c text ih => exact (p.rank_lt_step c).le.trans (ih (p.step c))

theorem rank_lt_after (p : Position) {text : List Char} (h : text ≠ []) :
    p.rank < (p.after text).rank := by
  obtain ⟨c, rest, rfl⟩ := List.exists_cons_of_ne_nil h
  exact (p.rank_lt_step c).trans_le ((p.step c).rank_le_after rest)

/-- Further on in a text lines and columns are later. -/
theorem rank_after_take_lt {text : List Char} {offset further : Nat} (hlt : offset < further)
    (hle : further ≤ text.length) :
    (after {} (text.take offset)).rank < (after {} (text.take further)).rank := by
  obtain ⟨gap, rfl⟩ := Nat.exists_eq_add_of_lt hlt
  have hne : (text.drop offset).take (gap + 1) ≠ [] := by
    rw [← List.length_pos_iff, List.length_take, List.length_drop]
    omega
  rw [Nat.add_assoc, List.take_add, after_append]
  exact rank_lt_after _ hne

end Position

/-- The diagnostic lies in the source, with a span that starts at the offset. -/
def Diagnostic.StartsAt (source : String) (offset : Nat) (d : Diagnostic) : Prop :=
  d.source = some source ∧ ∃ span, d.span = some span ∧ span.start = offset

/-- A diagnostic names the line and column that are counted on the way to its start. -/
theorem Diagnostic.StartsAt.reported {source : String} {offset : Nat} {d : Diagnostic}
    (h : d.StartsAt source offset) (hoffset : offset ≤ source.length) :
    d.line? = some (Position.after {} (source.toList.take offset)).line ∧
      d.column? = some (Position.after {} (source.toList.take offset)).column := by
  obtain ⟨hsource, span, hspan, hstart⟩ := h
  apply (Position.marks_after_take source.toList offset).reported hsource hspan
  rw [Position.offset_after_take (by rwa [String.length_toList]), hstart]

namespace Scanner

theorem skip_skip (s : Scanner) (first second : Nat) :
    (s.skip first).skip second = s.skip (first + second) := by
  have hplace : (s.place.after (s.rest.take first)).after ((s.skip first).rest.take second) =
      s.place.after (s.rest.take (first + second)) := by
    rw [rest_skip, List.take_add, Position.after_append]
  exact congrArg (fun place => { s with place }) hplace

/-- Moves forward add up. -/
theorem performAll_advance (s : Scanner) (counts : List Nat) :
    s.performAll (counts.map fun count : Nat => .advance count) = s.skip counts.sum := by
  induction counts generalizing s with
  | nil => rfl
  | cons count counts ih =>
      have hstep : (s.perform (.advance count)).2 = s.skip count := by
        rw [perform, advance, if_neg (Int.not_lt.mpr (Int.natCast_nonneg count)), Int.toNat_natCast]
      rw [List.sum_cons, ← skip_skip, ← ih, ← hstep]
      rfl

theorem place_skip_ofText (source : String) (count : Nat) :
    ((ofText source).skip count).place = Position.after {} (source.toList.take count) := rfl

end Scanner

section
variable {source : String} {d d' : Diagnostic} {offset further : Nat}

/-- Of two diagnostics the one that starts further on names the later line, or the later column of
the same line. -/
theorem Diagnostic.StartsAt.reported_lt (hd : d.StartsAt source offset)
    (hd' : d'.StartsAt source further) (hlt : offset < further) (hle : further ≤ source.length) :
    ∃ line column line' column', d.line? = some line ∧ d.column? = some column ∧
      d'.line? = some line' ∧ d'.column? = some column' ∧
      toLex (line, column) < toLex (line', column') := by
  obtain ⟨hline, hcolumn⟩ := hd.reported (hlt.le.trans hle)
  obtain ⟨hline', hcolumn'⟩ := hd'.reported hle
  refine ⟨_, _, _, _, hline, hcolumn, hline', hcolumn', ?_⟩
  exact Position.rank_after_take_lt hlt (by rwa [String.length_toList])

theorem Diagnostic.StartsAt.not_lt_of_reported_eq (hd : d.StartsAt source offset)
    (hd' : d'.StartsAt source further) (hle : further ≤ source.length)
    (hline : d.line? = d'.line?) (hcolumn : d.column? = d'.column?) : ¬ offset < further := by
  intro hlt
  obtain ⟨line, column, line', column', hl, hc, hl', hc', hrank⟩ := hd.reported_lt hd' hlt hle
  obtain rfl : line = line' := Option.some.inj (hl.symm.trans (hline.trans hl'))
  obtain rfl : column = column' := Option.some.inj (hc.symm.trans (hcolumn.trans hc'))
  exact lt_irrefl _ hrank

end

/-- Of two diagnostics in one source the one that starts further on names the later line, or the later
column of the same line; so line and column determine where a diagnostic starts. They are those of a
scanner that was moved there from the front of the source by any moves forward, of which none goes
beyond the end. -/
theorem line_and_column_determine_offset (source : String) :
    (∀ (d d' : Diagnostic) (offset further : Nat), d.StartsAt source offset →
      d'.StartsAt source further → offset < further → further ≤ source.length →
      ∃ line column line' column', d.line? = some line ∧ d.column? = some column ∧
        d'.line? = some line' ∧ d'.column? = some column' ∧
        toLex (line, column) < toLex (line', column')) ∧
    (∀ (d d' : Diagnostic) (offset other : Nat), d.StartsAt source offset →
      d'.StartsAt source other → offset ≤ source.length → other ≤ source.length →
      d.line? = d'.line? → d.column? = d'.column? → offset = other) ∧
    ∀ counts : List Nat,
      let place := ((Scanner.ofText source).performAll
        (counts.map fun count : Nat => .advance count)).place
      place.offset = min counts.sum source.length ∧
        ∀ d : Diagnostic, d.StartsAt source place.offset →
          d.line? = some place.line ∧ d.column? = some place.column := by
  refine ⟨fun d d' offset further hd hd' => hd.reported_lt hd', ?_, ?_⟩
  · intro d d' offset other hd hd' hle hle' hline hcolumn
    have hge := hd.not_lt_of_reported_eq hd' hle' hline hcolumn
    have hge' := hd'.not_lt_of_reported_eq hd hle hline.symm hcolumn.symm
    exact Nat.le_antisymm (Nat.le_of_not_lt hge') (Nat.le_of_not_lt hge)
  · intro counts place
    have hplace : place = Position.after {} (source.toList.take counts.sum) := by
      simp only [place, Scanner.performAll_advance, Scanner.place_skip_ofText]
    have hoffset : place.offset = min counts.sum source.length := by
      rw [hplace, Position.offset_after, List.length_take, String.length_toList, Nat.zero_add]
    refine ⟨hoffset, fun d hd => ?_⟩
    have htake : source.toList.take place.offset = source.toList.take counts.sum := by
      rw [hoffset, ← String.length_toList, ← List.take_eq_take_min]
    have hreported := hd.reported (by rw [hoffset]; exact Nat.min_le_right _ _)
    rwa [htake, ← hplace] at hreported

/-- The line feed in the middle of this text and its end lie in the same column, and their lines tell
them apart. Of the moves to the end one leads nowhere, and one stops short. -/
theorem line_and_column_determine_offset_feed :
    let d (start : Nat) : Diagnostic :=
      ⟨.general "oops", some "a\nb", some { start, stop := start }, none⟩
    let place := ((Scanner.ofText "a\nb").performAll
      ([2, 0, 7].map fun count : Nat => .advance count)).place
    (d 1).StartsAt "a\nb" 1 ∧ (d 3).StartsAt "a\nb" 3 ∧ (d 1).column? = (d 3).column? ∧
      (∃ line column line' column', (d 1).line? = some line ∧ (d 1).column? = some column ∧
        (d 3).line? = some line' ∧ (d 3).column? = some column' ∧
        toLex (line, column) < toLex (line', column')) ∧
      (d 1).line? ≠ (d 3).line? ∧ place.offset = 3 ∧ (d 3).line? = some place.line ∧
      (d 3).column? = some place.column := by
  intro d place
  have hfeed : (d 1).StartsAt "a\nb" 1 := ⟨rfl, _, rfl, rfl⟩
  have hend : (d 3).StartsAt "a\nb" 3 := ⟨rfl, _, rfl, rfl⟩
  have hcolumn : (d 1).column? = (d 3).column? := by decide
  obtain ⟨hordered, hdetermine, hmoved⟩ := line_and_column_determine_offset "a\nb"
  obtain ⟨hoffset, hcounted⟩ := hmoved [2, 0, 7]
  refine ⟨hfeed, hend, hcolumn, hordered _ _ 1 3 hfeed hend (by decide) (by decide), ?_, hoffset,
    hcounted (d 3) hend⟩
  intro hline
  exact absurd (hdetermine _ _ 1 3 hfeed hend (by decide) (by decide) hline hcolumn) (by decide)

end Glass
