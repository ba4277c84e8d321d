import Glass.Proofs.SignedNumber
import Glass.Proofs.SpacedWords

/-!
Printing is unambiguous. The first character of a printed value tells its kind, and from there on
the text tells where the value ends: a string at its closing quote, a number where no number goes on,
a list or dictionary at the bracket that closes it. What stands between the quotes of a string is
escaped, so that commas, colons and brackets in it are never taken for those between items.
-/

namespace Glass

/-- The text ends, or goes on as it may behind an item of a list or dictionary. -/
def EndsItem (rest : List Char) : Prop :=
  ∀ c, rest.head? = some c → c ∈ [',', ']', '\x7d']

theorem EndsItem.endsNumber {rest : List Char} (h : EndsItem rest) : EndsNumber rest := by
  intro c hc
  have hmember := h c hc
  simp only [List.mem_cons, List.not_mem_nil, or_false] at hmember
  rcases hmember with rfl | rfl | rfl <;> decide

theorem endsItem_nil : EndsItem [] := by
  intro c hc
  cases hc

theorem endsItem_cons {c : Char} (rest : List Char) (h : c ∈ [',', ']', '\x7d']) :
    EndsItem (c :: rest) := by
  intro d hd
  obtain rfl := Option.some.inj hd
  exact h

/-- The printed form of `a` at the front of a text can be that of no other item. -/
def Decides {α : Type} (print : α → List Char) (a : α) : Prop :=
  ∀ b rest rest', EndsItem rest → EndsItem rest' → print a ++ rest = print b ++ rest' → a = b

theorem Decides.split {α : Type} {print : α → List Char} {a b : α} {rest rest' : List Char}
    (h : Decides print a) (hrest : EndsItem rest) (hrest' : EndsItem rest')
    (heq : print a ++ rest = print b ++ rest') : a = b ∧ rest = rest' := by
  obtain rfl := h b rest rest' hrest hrest' heq
  exact ⟨rfl, List.append_cancel_left heq⟩

section Row

variable {α : Type} {print : α → List Char} {items : List α}

/-- The items behind the first one, each with the comma in front of it. -/
def moreText (print : α → List Char) (items : List α) : List Char :=
  items.flatMap fun a => ',' :: ' ' :: print a

theorem intercalate_cons_eq (a : α) (items : List α) :
    [',', ' '].intercalate ((a :: items).map print) = print a ++ moreText print items := by
  induction items generalizing a with
  | nil => simp [moreText]
  | cons b items ih =>
      rw [List.map_cons, List.map_cons, List.intercalate_cons_cons, ← List.map_cons, ih]
      simp [moreText]

theorem endsItem_moreText (items : List α) {close : Char} (hclose : close ∈ [']', '\x7d'])
    (rest : List Char) : EndsItem (moreText print items ++ close :: rest) := by
  cases items with
  | nil => exact endsItem_cons rest (List.mem_cons_of_mem _ hclose)
  | cons a items => exact endsItem_cons _ (by simp)

/-- Further items are told apart one by one, up to the closing bracket. -/
theorem moreText_split (h : ∀ a ∈ items, Decides print a) {close : Char}
    (hclose : close ∈ [']', '\x7d']) {others : List α} {rest rest' : List Char}
    (heq : moreText print items ++ close :: rest = moreText print others ++ close :: rest') :
    items = others ∧ rest = rest' := by
  have hcomma : close ≠ ',' := by
    rintro rfl
    simp at hclose
  induction items generalizing others with
  | nil =>
      cases others with
      | nil => exact ⟨rfl, (List.cons.inj heq).2⟩
      | cons b others => exact absurd (List.cons.inj heq).1 hcomma
  | cons a items ih =>
      obtain ⟨ha, hitems⟩ := List.forall_mem_cons.mp h
      cases others with
      | nil => exact absurd (List.cons.inj heq).1.symm hcomma
      | cons b others =>
          simp only [moreText, List.flatMap_cons, List.cons_append, List.append_assoc,
            List.cons.injEq, true_and] at heq
          obtain ⟨rfl, hrest⟩ := ha.split (endsItem_moreText items hclose rest)
            (endsItem_moreText others hclose rest') heq
          obtain ⟨rfl, rfl⟩ := ih hitems hrest
          exact ⟨rfl, rfl⟩

/-- The items of a row are told by the row and the bracket that closes it, with which no item
starts. -/
theorem row_split (h : ∀ a ∈ items, Decides print a) {close : Char}
    (hclose : close ∈ [']', '\x7d']) (hfirst : ∀ a, (print a).head? ∉ [none, some close])
    {others : List α} {rest rest' : List Char}
    (heq : [',', ' '].intercalate (items.map print) ++ close :: rest =
      [',', ' '].intercalate (others.map print) ++ close :: rest') :
    items = others ∧ rest = rest' := by
  have hne (a : α) (more rest : List Char) : close :: rest ≠ print a ++ more := by
    intro hfront
    have hhead := congrArg List.head? hfront
    have hstart := hfirst a
    cases hprint : print a with
    | nil =>
        rw [hprint] at hstart
        simp at hstart
    | cons c text =>
        rw [hprint] at hhead hstart
        obtain rfl : close = c := Option.some.inj hhead
        simp at hstart
  cases items with
  | nil =>
      cases others with
      | nil => exact ⟨rfl, (List.cons.inj heq).2⟩
      | cons b others =>
          rw [intercalate_cons_eq, List.append_assoc] at heq
          exact absurd heq (hne b _ rest)
  | cons a items =>
      obtain ⟨ha, hitems⟩ := List.forall_mem_cons.mp h
      rw [intercalate_cons_eq, List.append_assoc] at heq
      cases others with
      | nil => exact absurd heq.symm (hne a _ rest')
      | cons b others =>
          rw [intercalate_cons_eq, List.append_assoc] at heq
          obtain ⟨rfl, hrest⟩ := ha.split (endsItem_moreText items hclose rest)
            (endsItem_moreText others hclose rest') heq
          obtain ⟨rfl, rfl⟩ := moreText_split hitems hclose hrest
          exact ⟨rfl, rfl⟩

end Row

/-- A quoted text ends at its closing quote, whatever follows. -/
theorem quoteText_split {text text' : String} {rest rest' : List Char}
    (h : (quoteText text).toList ++ rest = (quoteText text').toList ++ rest') :
    text = text' ∧ rest = rest' := by
  have hscan := congrArg (fun chars => (Lexeme.scan chars).payload) h
  simp only [Lexeme.scan_quoted, Lexeme.whole, Payload.text.injEq] at hscan
  subst hscan
  exact ⟨rfl, List.append_cancel_left h⟩

namespace Value

/-- The printed form as a row of characters. -/
def chars (v : Value) : List Char := v.render.toList

/-- An entry of a dictionary as it is printed. -/
def entryText (entry : String × Value) : List Char :=
  (quoteText entry.1).toList ++ ':' :: ' ' :: entry.2.chars

theorem renderItems_eq_map (items : List Value) : renderItems items = items.map render := by
  induction items with
  | nil => rfl
  | cons item rest ih => rw [renderItems, ih, List.map_cons]

theorem renderEntries_eq_map (entries : List (String × Value)) :
    (renderEntries entries).map String.toList = entries.map entryText := by
  induction entries with
  | nil => rfl
  | cons entry rest ih =>
      rw [renderEntries, List.map_cons, ih, List.map_cons]
      simp [entryText, chars]

theorem chars_list (items : List Value) :
    (Value.list items).chars =
      '[' :: ([',', ' '].intercalate (items.map chars) ++ [']']) := by
  rw [chars, render, renderItems_eq_map, String.toList_append, String.toList_append,
    String.toList_intercalate, List.map_map]
  rfl

theorem chars_dictionary (entries : List (String × Value)) :
    (Value.dictionary entries).chars =
      '\x7b' :: ([',', ' '].intercalate (entries.map entryText) ++ ['\x7d']) := by
  rw [chars, render, String.toList_append, String.toList_append, String.toList_intercalate,
    renderEntries_eq_map]
  rfl

/-- The kind of the values whose printed form starts with the character. -/
def kindOfFirst : Char → ValueKind
  | '"' => .string
  | 't' | 'f' => .boolean
  | '[' => .list
  | '\x7b' => .dictionary
  | 'v' => .void
  | _ => .number

theorem chars_head (v : Value) :
    ∃ c more, v.chars = c :: more ∧ kindOfFirst c = v.kind ∧ c ≠ ']' := by
  cases v with
  | number x =>
      obtain ⟨c, more, htext, hfirst⟩ := NumberStyle.printed_head x
      refine ⟨c, more, htext, ?_, ?_⟩
      · unfold kindOfFirst
        split
        case h_7 => rfl
        all_goals simp at hfirst
      · rintro rfl
        simp at hfirst
  | string text =>
      have hquoted : (Value.string text).chars = '"' :: (escapeText text.toList ++ ['"']) := by
        simp [chars, render, quoteText]
      exact ⟨'"', _, hquoted, rfl, by decide⟩
  | boolean b =>
      cases b with
      | true => exact ⟨'t', _, rfl, rfl, by decide⟩
      | false => exact ⟨'f', _, rfl, rfl, by decide⟩
  | list items => exact ⟨'[', _, chars_list items, rfl, by decide⟩
  | dictionary entries => exact ⟨'\x7b', _, chars_dictionary entries, rfl, by decide⟩
  | void => exact ⟨'v', _, rfl, rfl, by decide⟩

theorem kind_eq_of_front {v w : Value} {rest rest' : List Char}
    (h : v.chars ++ rest = w.chars ++ rest') : v.kind = w.kind := by
  obtain ⟨c, more, hv, hkind, _⟩ := v.chars_head
  obtain ⟨d, more', hw, hkind', _⟩ := w.chars_head
  rw [hv, hw] at h
  obtain rfl : c = d := (List.cons.inj h).1
  rw [← hkind, ← hkind']

theorem decides_entry {entry : String × Value}
    (h : Decides chars entry.2) : Decides entryText entry := by
  intro other rest rest' hrest hrest' heq
  simp only [entryText, List.append_assoc, List.cons_append] at heq
  obtain ⟨hname, hvalue⟩ := quoteText_split heq
  simp only [List.cons.injEq, true_and] at hvalue
  exact Prod.ext hname (h other.2 rest rest' hrest hrest' hvalue)

/-- What a list or dictionary prints between its brackets tells its items. -/
theorem decides_row {α : Type} {print : α → List Char} {items others : List α} {first close : Char}
    {rest rest' : List Char} (h : ∀ a ∈ items, Decides print a) (hclose : close ∈ [']', '\x7d'])
    (hfirst : ∀ a, (print a).head? ∉ [none, some close])
    (heq : first :: ([',', ' '].intercalate (items.map print) ++ [close]) ++ rest =
      first :: ([',', ' '].intercalate (others.map print) ++ [close]) ++ rest') :
    items = others := by
  simp only [List.cons_append, List.append_assoc, List.nil_append, List.cons.injEq, true_and] at heq
  exact (row_split h hclose hfirst heq).1

mutual

/-- No printed value can be taken for another one, whatever stands behind it. -/
theorem decides : (v : Value) → Decides chars v
  | .number x => by
      intro w rest rest' hrest hrest' heq
      have hkind := kind_eq_of_front heq
      cases w with
      | number y =>
          have hx := NumberStyle.readPrinted_printed x hrest.endsNumber
          have hy := NumberStyle.readPrinted_printed y hrest'.endsNumber
          simp only [chars, render] at heq
          rw [heq, hy] at hx
          rw [hx]
      | _ => cases hkind
  | .string text => by
      intro w rest rest' _ _ heq
      have hkind := kind_eq_of_front heq
      cases w with
      | string text' =>
          simp only [chars, render] at heq
          rw [(quoteText_split heq).1]
      | _ => cases hkind
  | .boolean b => by
      intro w rest rest' _ _ heq
      have hkind := kind_eq_of_front heq
      cases w with
      | boolean b' => cases b <;> cases b' <;> simp [chars, render] at heq ⊢
      | _ => cases hkind
  | .list items => by
      intro w rest rest' _ _ heq
      have hkind := kind_eq_of_front heq
      cases w with
      | list others =>
          simp only [chars_list] at heq
          rw [decides_row (decidesItems items) (by simp) ?_ heq]
          intro v
          obtain ⟨c, more, hv, _, hclose⟩ := v.chars_head
          simpa [hv] using hclose
      | _ => cases hkind
  | .dictionary entries => by
      intro w rest rest' _ _ heq
      have hkind := kind_eq_of_front heq
      cases w with
      | dictionary others =>
          simp only [chars_dictionary] at heq
          rw [decides_row (decidesEntries entries) (by simp) ?_ heq]
          intro entry
          simp [entryText, quoteText]
      | _ => cases hkind
  | .void => by
      intro w rest rest' _ _ heq
      have hkind := kind_eq_of_front heq
      cases w with
      | void => rfl
      | _ => cases hkind

theorem decidesItems :
    (items : List Value) → ∀ v ∈ items, Decides chars v
  | [] => by simp
  | v :: rest => List.forall_mem_cons.mpr ⟨decides v, decidesItems rest⟩

theorem decidesEntries :
    (entries : List (String × Value)) → ∀ entry ∈ entries, Decides entryText entry
  | [] => by simp
  | (_, v) :: rest => List.forall_mem_cons.mpr ⟨decides_entry (decides v), decidesEntries rest⟩

end

end Value

/-- Two values that are printed alike are the same: doubles down to the sign of a zero, lists item
by item, and dictionaries entry by entry, in the order of these. -/
theorem printing_is_unambiguous : Function.Injective Value.render := by
  intro v w h
  apply v.decides w [] [] endsItem_nil endsItem_nil
  rw [Value.chars, Value.chars, h]

end Glass
