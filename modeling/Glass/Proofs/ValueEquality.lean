import Mathlib
import Glass.Value.Operation

/-!
Equality of values. Two values are equal if their surfaces are, and part by part what they hold: an
item of a list is found by its index and an entry of a dictionary by its name, so that the order of
entries does not count. Seen in this way equality treats both sides alike, although a dictionary is
compared by walking through the entries of one side only. What keeps a value from being equal to
itself is a NaN somewhere inside it, and nothing else.

The comparison that has a limit finds the same, unless it goes too deep. It does so only if both values
nest past the limit, and values that it finds equal nest alike, so that the laws hold of it as well.
-/

namespace Glass.Value

/-- No dictionary in the value has two entries of one name. -/
inductive Distinct : Value → Prop where
  | number (x : Float) : Distinct (.number x)
  | string (text : String) : Distinct (.string text)
  | boolean (b : Bool) : Distinct (.boolean b)
  | list {items : List Value} : (∀ v ∈ items, Distinct v) → Distinct (.list items)
  | dictionary {entries : Entries Value} : entries.names.Nodup →
      (∀ entry ∈ entries, Distinct entry.2) → Distinct (.dictionary entries)
  | void : Distinct .void

/-- The number is the value or stands somewhere inside it. -/
inductive Holds (x : Float) : Value → Prop where
  | here : Holds x (.number x)
  | item {items : List Value} {v : Value} : v ∈ items → Holds x v → Holds x (.list items)
  | entry {entries : Entries Value} {name : String} {v : Value} :
      (name, v) ∈ entries → Holds x v → Holds x (.dictionary entries)

/-- One value is the other with the entries of dictionaries, at any depth, in another order. -/
inductive Reordered : Value → Value → Prop where
  | refl (v : Value) : Reordered v v
  | trans {u v w : Value} : Reordered u v → Reordered v w → Reordered u w
  | entries {first second : Entries Value} :
      first.Perm second → Reordered (.dictionary first) (.dictionary second)
  | item {v w : Value} (before behind : List Value) : Reordered v w →
      Reordered (.list (before ++ v :: behind)) (.list (before ++ w :: behind))
  | entry {v w : Value} (before behind : Entries Value) (name : String) : Reordered v w →
      Reordered (.dictionary (before ++ (name, v) :: behind))
        (.dictionary (before ++ (name, w) :: behind))

/-- What a part of a value is found by. -/
inductive Key where
  | index (i : Nat)
  | name (text : String)

/-- The part of a value that a key leads to. -/
def part? : Value → Key → Option Value
  | .list items, .index i => items[i]?
  | .dictionary entries, .name text => Entries.get? entries text
  | _, _ => none

/-- The values agree as far as their parts are left out. -/
inductive SameSurface : Value → Value → Prop where
  | number {x y : Float} : (x == y) = true → SameSurface (.number x) (.number y)
  | string (text : String) : SameSurface (.string text) (.string text)
  | boolean (b : Bool) : SameSurface (.boolean b) (.boolean b)
  | list (items others : List Value) : SameSurface (.list items) (.list others)
  | dictionary (entries others : Entries Value) :
      SameSurface (.dictionary entries) (.dictionary others)
  | void : SameSurface .void .void

/-- The parts are equal, or there is none on either side. -/
def EqualParts (v w : Option Value) : Prop := Option.Rel (fun a b => a.equal b = true) v w

section Parts

theorem equalParts_some {v w : Value} : EqualParts (some v) (some w) ↔ v.equal w = true :=
  Option.rel_some_some

theorem equalItems_iff (items others : List Value) :
    equalItems items others = true ↔ ∀ i : Nat, EqualParts items[i]? others[i]? := by
  induction items generalizing others with
  | nil =>
      cases others with
      | nil => simp [equalItems, EqualParts]
      | cons w others =>
          rw [equalItems]
          · simp only [Bool.false_eq_true, false_iff, not_forall]
            exact ⟨0, nofun⟩
          all_goals simp
  | cons v items ih =>
      cases others with
      | nil =>
          rw [equalItems]
          · simp only [Bool.false_eq_true, false_iff, not_forall]
            exact ⟨0, nofun⟩
          all_goals simp
      | cons w others =>
          rw [equalItems, Bool.and_eq_true, ih, ← equalParts_some]
          exact Nat.and_forall_add_one
            (p := fun i : Nat => EqualParts (v :: items)[i]? (w :: others)[i]?)

theorem equalEntries_iff (entries others : Entries Value) :
    equalEntries entries others = true ↔
      ∀ entry ∈ entries, ∃ w, others.get? entry.1 = some w ∧ entry.2.equal w = true := by
  induction entries with
  | nil => simp [equalEntries]
  | cons entry entries ih =>
      obtain ⟨name, v⟩ := entry
      rw [equalEntries, Bool.and_eq_true, ih, List.forall_mem_cons]
      apply and_congr_left'
      have hlookup : List.lookup name others = others.get? name := rfl
      rw [hlookup]
      cases others.get? name <;> simp

section Names

variable {entries others : Entries Value} (hentries : entries.names.Nodup)
include hentries

/-- If the names of one side are all names of the other and there are as many, they are the same. -/
theorem names_perm_of_equalEntries (hlength : entries.length = others.length)
    (hequal : equalEntries entries others = true) : entries.names.Perm others.names := by
  have hsubset : entries.names ⊆ others.names := by
    intro name hname
    obtain ⟨entry, member, rfl⟩ := List.mem_map.mp hname
    obtain ⟨w, hw, _⟩ := (equalEntries_iff entries others).mp hequal entry member
    exact Entries.mem_names_iff.mpr ⟨w, hw⟩
  apply (hentries.subperm hsubset).perm_of_length_le
  simp [Entries.names, hlength]

theorem names_perm_of_parts (hothers : others.names.Nodup)
    (hparts : ∀ name, EqualParts (entries.get? name) (others.get? name)) :
    entries.names.Perm others.names := by
  apply (List.perm_ext_iff_of_nodup hentries hothers).mpr
  intro name
  rw [Entries.mem_names_iff, Entries.mem_names_iff]
  have hname := hparts name
  generalize entries.get? name = v, others.get? name = w at hname
  cases hname <;> simp

/-- Where names are distinct, dictionaries are equal if each name leads to equal parts in both. -/
theorem equalEntries_iff_parts (hothers : others.names.Nodup) :
    entries.length = others.length ∧ equalEntries entries others = true ↔
      ∀ name, EqualParts (entries.get? name) (others.get? name) := by
  constructor
  · rintro ⟨hlength, hequal⟩ name
    have hperm := names_perm_of_equalEntries hentries hlength hequal
    rw [equalEntries_iff] at hequal
    cases hfound : entries.get? name with
    | some v =>
        have member := (Entries.get?_eq_some_iff hentries).mp hfound
        obtain ⟨w, hw, hvw⟩ := hequal (name, v) member
        rw [hw]
        exact .some hvw
    | none =>
        cases hother : others.get? name with
        | none => exact .none
        | some w =>
            have hname := hperm.mem_iff.mpr (Entries.mem_names_iff.mpr ⟨w, hother⟩)
            obtain ⟨v, hv⟩ := Entries.mem_names_iff.mp hname
            rw [hfound] at hv
            cases hv
  · intro hparts
    refine ⟨?_, (equalEntries_iff entries others).mpr ?_⟩
    · simpa [Entries.names] using (names_perm_of_parts hentries hothers hparts).length_eq
    · intro entry member
      have hfound := (Entries.get?_eq_some_iff hentries).mpr member
      have hname := hparts entry.1
      rw [hfound] at hname
      generalize others.get? entry.1 = w at hname
      cases hname with
      | some hequal => exact ⟨_, rfl, hequal⟩

end Names

theorem equal_of_kind_ne {a b : Value} (h : a.kind ≠ b.kind) : a.equal b = false := by
  unfold equal
  split
  case h_7 => rfl
  all_goals exact absurd rfl h

theorem SameSurface.kind_eq {a b : Value} (h : SameSurface a b) : a.kind = b.kind := by
  cases h <;> rfl

theorem sameSurface_of_equal {a b : Value} (h : a.equal b = true) : SameSurface a b := by
  have hkind : a.kind = b.kind := by
    by_contra hne
    rw [equal_of_kind_ne hne] at h
    cases h
  cases a with
  | number x =>
      cases b with
      | number y => exact .number h
      | _ => cases hkind
  | string text =>
      cases b with
      | string other =>
          obtain rfl : text = other := by simpa [equal] using h
          exact .string text
      | _ => cases hkind
  | boolean x =>
      cases b with
      | boolean y =>
          obtain rfl : x = y := by simpa [equal] using h
          exact .boolean x
      | _ => cases hkind
  | list items =>
      cases b with
      | list others => exact .list items others
      | _ => cases hkind
  | dictionary entries =>
      cases b with
      | dictionary others => exact .dictionary entries others
      | _ => cases hkind
  | void =>
      cases b with
      | void => exact .void
      | _ => cases hkind

/-- Values with the same surface are equal if each key leads to equal parts. -/
theorem SameSurface.equal_iff_parts {a b : Value} (h : SameSurface a b) (ha : a.Distinct)
    (hb : b.Distinct) : a.equal b = true ↔ ∀ key, EqualParts (a.part? key) (b.part? key) := by
  cases h with
  | number h => exact iff_of_true h fun _ => .none
  | string text => exact iff_of_true (by simp [equal]) fun _ => .none
  | boolean b => exact iff_of_true (by simp [equal]) fun _ => .none
  | void => exact iff_of_true rfl fun _ => .none
  | list items others =>
      rw [equal, equalItems_iff]
      constructor
      · intro hitems key
        cases key with
        | index i => exact hitems i
        | name text => exact .none
      · intro hparts i
        exact hparts (.index i)
  | dictionary entries others =>
      cases ha with
      | dictionary hentries _ =>
          cases hb with
          | dictionary hothers _ =>
              rw [equal, Bool.and_eq_true, beq_iff_eq, equalEntries_iff_parts hentries hothers]
              constructor
              · intro hnames key
                cases key with
                | index i => exact .none
                | name text => exact hnames text
              · intro hparts text
                exact hparts (.name text)

/-- Values are equal if their surfaces are and each key leads to equal parts. -/
theorem equal_iff {a b : Value} (ha : a.Distinct) (hb : b.Distinct) :
    a.equal b = true ↔ SameSurface a b ∧ ∀ key, EqualParts (a.part? key) (b.part? key) := by
  constructor
  · intro h
    have hsurface := sameSurface_of_equal h
    exact ⟨hsurface, (hsurface.equal_iff_parts ha hb).mp h⟩
  · rintro ⟨hsurface, hparts⟩
    exact (hsurface.equal_iff_parts ha hb).mpr hparts

theorem mem_of_part? {v w : Value} {key : Key} (h : v.part? key = some w) :
    (∃ items, v = .list items ∧ w ∈ items) ∨
      ∃ entries name, v = .dictionary entries ∧ Entries.get? entries name = some w := by
  unfold part? at h
  split at h
  · exact Or.inl ⟨_, rfl, List.mem_of_getElem? h⟩
  · exact Or.inr ⟨_, _, rfl, h⟩
  · cases h

theorem Distinct.of_part {v w : Value} {key : Key} (hv : v.Distinct) (h : v.part? key = some w) :
    w.Distinct := by
  rcases mem_of_part? h with ⟨items, rfl, member⟩ | ⟨entries, name, rfl, hfound⟩
  · cases hv with
    | list hitems => exact hitems w member
  · cases hv with
    | dictionary hnames hvalues =>
        exact hvalues (name, w) ((Entries.get?_eq_some_iff hnames).mp hfound)

/-- What holds of a value whenever it holds of its parts holds of every value. -/
@[elab_as_elim]
theorem Distinct.induction_parts {motive : (v : Value) → v.Distinct → Prop}
    (step : ∀ (v : Value) (hv : v.Distinct),
      (∀ key w, (h : v.part? key = some w) → motive w (hv.of_part h)) → motive v hv)
    {v : Value} (hv : v.Distinct) : motive v hv := by
  induction hv with
  | number x => exact step _ (.number x) nofun
  | string text => exact step _ (.string text) nofun
  | boolean b => exact step _ (.boolean b) nofun
  | void => exact step _ .void nofun
  | list hitems ih =>
      apply step _ (.list hitems)
      intro key w h
      rcases mem_of_part? h with ⟨items, heq, member⟩ | ⟨entries, name, heq, _⟩
      · cases heq
        exact ih w member
      · cases heq
  | dictionary hnames hvalues ih =>
      apply step _ (.dictionary hnames hvalues)
      intro key w h
      rcases mem_of_part? h with ⟨items, heq, _⟩ | ⟨entries, name, heq, hfound⟩
      · cases heq
      · cases heq
        exact ih (name, w) ((Entries.get?_eq_some_iff hnames).mp hfound)

end Parts

section Laws

/-- Numbers are equal if they are the same double and no NaN, or zeros of either sign. -/
theorem equal_number_iff (x y : Float) :
    (Value.number x).equal (.number y) = true ↔
      x.isNaN = false ∧ y.isNaN = false ∧ (x = y ∨ x = 0 ∧ y = -0 ∨ x = -0 ∧ y = 0) := by
  rw [equal, Float.beq_iff_ne_nan_and_eq, Float.isNaN_eq_decide_eq_nan,
    Float.isNaN_eq_decide_eq_nan, decide_eq_false_iff_not, decide_eq_false_iff_not]

theorem SameSurface.symm {a b : Value} (h : SameSurface a b) : SameSurface b a := by
  cases h with
  | @number x y h =>
      apply SameSurface.number
      apply (equal_number_iff y x).mpr
      have hxy := (equal_number_iff x y).mp h
      tauto
  | string text => exact .string text
  | boolean b => exact .boolean b
  | list items others => exact .list others items
  | dictionary entries others => exact .dictionary others entries
  | void => exact .void

theorem SameSurface.trans {a b c : Value} (hab : SameSurface a b) (hbc : SameSurface b c) :
    SameSurface a c := by
  cases hab with
  | @number x y hxy =>
      cases hbc with
      | @number _ z hyz =>
          obtain ⟨hx, _, hxy⟩ := (equal_number_iff x y).mp hxy
          obtain ⟨_, hz, hyz⟩ := (equal_number_iff y z).mp hyz
          apply SameSurface.number
          apply (equal_number_iff x z).mpr
          refine ⟨hx, hz, ?_⟩
          rcases hxy with rfl | ⟨rfl, rfl⟩ | ⟨rfl, rfl⟩
          · exact hyz
          · tauto
          · tauto
  | string text => exact hbc
  | boolean b => exact hbc
  | list items others =>
      cases hbc with
      | list _ more => exact .list items more
  | dictionary entries others =>
      cases hbc with
      | dictionary _ more => exact .dictionary entries more
  | void => exact hbc

theorem equal_symm {a : Value} (ha : a.Distinct) :
    ∀ b : Value, b.Distinct → a.equal b = true → b.equal a = true := by
  induction ha using Distinct.induction_parts with
  | step a ha ih =>
      intro b hb h
      obtain ⟨hsurface, hparts⟩ := (equal_iff ha hb).mp h
      refine (equal_iff hb ha).mpr ⟨hsurface.symm, fun key => ?_⟩
      have hkey := hparts key
      generalize hv : a.part? key = v, hw : b.part? key = w at hkey
      cases hkey with
      | none => exact .none
      | some hequal => exact .some (ih key _ hv _ (hb.of_part hw) hequal)

theorem equal_trans {a : Value} (ha : a.Distinct) :
    ∀ b c : Value, b.Distinct → c.Distinct → a.equal b = true → b.equal c = true →
      a.equal c = true := by
  induction ha using Distinct.induction_parts with
  | step a ha ih =>
      intro b c hb hc hab hbc
      obtain ⟨hsurface, hparts⟩ := (equal_iff ha hb).mp hab
      obtain ⟨hsurface', hparts'⟩ := (equal_iff hb hc).mp hbc
      refine (equal_iff ha hc).mpr ⟨hsurface.trans hsurface', fun key => ?_⟩
      have hkey := hparts key
      have hkey' := hparts' key
      generalize hu : a.part? key = u, hv : b.part? key = v, hw : c.part? key = w at hkey hkey'
      cases hkey with
      | none =>
          cases hkey' with
          | none => exact .none
      | some hequal =>
          cases hkey' with
          | some hequal' =>
              exact .some (ih key _ hu _ _ (hb.of_part hv) (hc.of_part hw) hequal hequal')

theorem equal_comm {a b : Value} (ha : a.Distinct) (hb : b.Distinct) : a.equal b = b.equal a := by
  apply Bool.eq_iff_iff.mpr
  constructor
  · exact equal_symm ha b hb
  · exact equal_symm hb a ha

/-- A number inside a value is the value or is inside one of its parts. -/
theorem holds_iff {v : Value} (hv : v.Distinct) (x : Float) :
    v.Holds x ↔ v = .number x ∨ ∃ key w, v.part? key = some w ∧ w.Holds x := by
  constructor
  · intro h
    cases h with
    | here => exact Or.inl rfl
    | item member h =>
        obtain ⟨i, hi⟩ := List.mem_iff_getElem?.mp member
        exact Or.inr ⟨.index i, _, hi, h⟩
    | @entry entries name w member h =>
        cases hv with
        | dictionary hnames _ =>
            exact Or.inr ⟨.name name, w, (Entries.get?_eq_some_iff hnames).mpr member, h⟩
  · rintro (rfl | ⟨key, w, hpart, h⟩)
    · exact .here
    · rcases mem_of_part? hpart with ⟨items, rfl, member⟩ | ⟨entries, name, rfl, hfound⟩
      · exact .item member h
      · cases hv with
        | dictionary hnames _ => exact .entry ((Entries.get?_eq_some_iff hnames).mp hfound) h

/-- A value is equal to itself unless it holds a NaN. -/
theorem equal_self_iff {a : Value} (ha : a.Distinct) :
    a.equal a = true ↔ ∀ x, a.Holds x → x.isNaN = false := by
  induction ha using Distinct.induction_parts with
  | step a ha ih =>
      rw [equal_iff ha ha]
      constructor
      · rintro ⟨hsurface, hparts⟩ x hx
        rcases (holds_iff ha x).mp hx with rfl | ⟨key, w, hpart, hx⟩
        · cases hsurface with
          | number h => exact ((equal_number_iff x x).mp h).1
        · have hkey := hparts key
          rw [hpart] at hkey
          exact (ih key w hpart).mp (equalParts_some.mp hkey) x hx
      · intro hholds
        constructor
        · cases a with
          | number x =>
              have hx := hholds x .here
              exact .number ((equal_number_iff x x).mpr ⟨hx, hx, Or.inl rfl⟩)
          | string text => exact .string text
          | boolean b => exact .boolean b
          | list items => exact .list items items
          | dictionary entries => exact .dictionary entries entries
          | void => exact .void
        · intro key
          cases hpart : a.part? key with
          | none => exact .none
          | some w =>
              apply Option.Rel.some
              apply (ih key w hpart).mpr
              intro x hx
              exact hholds x ((holds_iff ha x).mpr (Or.inr ⟨key, w, hpart, hx⟩))

end Laws

section Order

theorem Reordered.distinct {v w : Value} (h : Reordered v w) (hv : v.Distinct) : w.Distinct := by
  induction h with
  | refl => exact hv
  | trans _ _ ih ih' => exact ih' (ih hv)
  | entries hperm =>
      cases hv with
      | dictionary hnames hvalues =>
          apply Distinct.dictionary
          · exact (hperm.map Prod.fst).nodup_iff.mp hnames
          · intro entry member
            exact hvalues entry (hperm.mem_iff.mpr member)
  | item before behind _ ih =>
      cases hv with
      | list hitems =>
          apply Distinct.list
          simp only [List.mem_append, List.mem_cons, or_imp, forall_and, forall_eq] at hitems ⊢
          exact ⟨hitems.1, ih hitems.2.1, hitems.2.2⟩
  | entry before behind name _ ih =>
      cases hv with
      | dictionary hnames hvalues =>
          apply Distinct.dictionary
          · simpa [Entries.names] using hnames
          · simp only [List.mem_append, List.mem_cons, or_imp, forall_and, forall_eq] at hvalues ⊢
            exact ⟨hvalues.1, ih hvalues.2.1, hvalues.2.2⟩

theorem sameSurface_list {items others : List Value} {b : Value} :
    SameSurface (.list items) b ↔ SameSurface (.list others) b := by
  constructor
  · rintro ⟨⟩
    exact .list _ _
  · rintro ⟨⟩
    exact .list _ _

theorem sameSurface_dictionary {entries others : Entries Value} {b : Value} :
    SameSurface (.dictionary entries) b ↔ SameSurface (.dictionary others) b := by
  constructor
  · rintro ⟨⟩
    exact .dictionary _ _
  · rintro ⟨⟩
    exact .dictionary _ _

/-- The order of entries does not matter to what a key leads to. -/
theorem part?_perm {first second : Entries Value} (hperm : first.Perm second)
    (hfirst : first.names.Nodup) (key : Key) :
    part? (.dictionary first) key = part? (.dictionary second) key := by
  cases key with
  | index i => rfl
  | name text =>
      have hsecond : second.names.Nodup := (hperm.map Prod.fst).nodup_iff.mp hfirst
      apply Option.ext
      intro v
      rw [part?, part?, Entries.get?_eq_some_iff hfirst, Entries.get?_eq_some_iff hsecond,
        hperm.mem_iff]

/-- A key leads to the same part in both values, or to `v` in the one and to `w` in the other. -/
def SamePart (v w : Value) (first second : Option Value) : Prop :=
  first = second ∨ first = some v ∧ second = some w

theorem samePart_item (v w : Value) (before behind : List Value) (key : Key) :
    SamePart v w (part? (.list (before ++ v :: behind)) key)
      (part? (.list (before ++ w :: behind)) key) := by
  cases key with
  | name text => exact Or.inl rfl
  | index i =>
      simp only [part?, List.getElem?_append]
      split
      · exact Or.inl rfl
      · cases i - before.length with
        | zero => exact Or.inr ⟨rfl, rfl⟩
        | succ j => exact Or.inl rfl

theorem samePart_entry (v w : Value) (before behind : Entries Value) (name : String) (key : Key) :
    SamePart v w (part? (.dictionary (before ++ (name, v) :: behind)) key)
      (part? (.dictionary (before ++ (name, w) :: behind)) key) := by
  cases key with
  | index i => exact Or.inl rfl
  | name text =>
      simp only [part?, Entries.get?_append, Entries.get?_cons]
      cases Entries.get? before text with
      | some u => exact Or.inl rfl
      | none =>
          simp only [Option.none_or]
          split
          · exact Or.inr ⟨rfl, rfl⟩
          · exact Or.inl rfl

/-- Values that differ in one part are equal to the same values if those parts are. -/
theorem equal_congr {u u' v w b : Value} (hu : u.Distinct) (hu' : u'.Distinct) (hb : b.Distinct)
    (hsurface : SameSurface u b ↔ SameSurface u' b)
    (hparts : ∀ key, SamePart v w (u.part? key) (u'.part? key))
    (hequal : ∀ c, c.Distinct → v.equal c = w.equal c) : u.equal b = u'.equal b := by
  apply Bool.eq_iff_iff.mpr
  rw [equal_iff hu hb, equal_iff hu' hb, hsurface]
  apply and_congr_right'
  apply forall_congr'
  intro key
  rcases hparts key with hsame | ⟨hv, hw⟩
  · rw [hsame]
  · rw [hv, hw]
    cases hc : b.part? key with
    | none => exact iff_of_false nofun nofun
    | some c => rw [equalParts_some, equalParts_some, hequal c (hb.of_part hc)]

/-- A value is equal to the same values in whatever order its entries stand. -/
theorem Reordered.equal_eq {v w : Value} (h : Reordered v w) (hv : v.Distinct) {b : Value}
    (hb : b.Distinct) : v.equal b = w.equal b := by
  have hw := h.distinct hv
  induction h generalizing b with
  | refl => rfl
  | trans h h' ih ih' =>
      have hmiddle := h.distinct hv
      exact (ih hv hb hmiddle).trans (ih' hmiddle hb hw)
  | @entries first second hperm =>
      cases hv with
      | dictionary hnames hvalues =>
          apply Bool.eq_iff_iff.mpr
          rw [equal_iff (.dictionary hnames hvalues) hb, equal_iff hw hb,
            @sameSurface_dictionary first second]
          simp only [part?_perm hperm hnames]
  | @item v w before behind h ih =>
      have hv' : v.Distinct := by
        cases hv with
        | list hitems => exact hitems v (by simp)
      apply equal_congr hv hw hb sameSurface_list (samePart_item v w before behind)
      intro c hc
      exact ih hv' hc (h.distinct hv')
  | @entry v w before behind name h ih =>
      have hv' : v.Distinct := by
        cases hv with
        | dictionary _ hvalues => exact hvalues (name, v) (by simp)
      apply equal_congr hv hw hb sameSurface_dictionary (samePart_entry v w before behind name)
      intro c hc
      exact ih hv' hc (h.distinct hv')

end Order

section Limit

/-- The values directly inside a value. -/
def parts : Value → List Value
  | .list items => items
  | .dictionary entries => entries.map Prod.snd
  | _ => []

/-- The value nests no deeper than `room` levels. -/
def Within : (room : Nat) → Value → Prop
  | 0, _ => False
  | room + 1, v => ∀ w ∈ v.parts, Within room w

section Answers

variable {α ε : Type} {answer : α → Except ε Bool} {truth : α → Bool} {e : ε} {xs : List α}

theorem allM_eq_ok (h : ∀ x ∈ xs, answer x = .ok (truth x)) :
    xs.allM answer = .ok (xs.all truth) := by
  induction xs with
  | nil => rfl
  | cons x xs ih =>
      obtain ⟨hx, hxs⟩ := List.forall_mem_cons.mp h
      rw [List.allM, hx, List.all_cons]
      cases truth x with
      | true => exact ih hxs
      | false => rfl

theorem allM_eq_ok_or_error (h : ∀ x ∈ xs, answer x = .ok (truth x) ∨ answer x = .error e) :
    xs.allM answer = .ok (xs.all truth) ∨ xs.allM answer = .error e := by
  induction xs with
  | nil => exact Or.inl rfl
  | cons x xs ih =>
      obtain ⟨hx, hxs⟩ := List.forall_mem_cons.mp h
      rw [List.allM, List.all_cons]
      rcases hx with hx | hx
      · rw [hx]
        cases truth x with
        | true => exact ih hxs
        | false => exact Or.inl rfl
      · rw [hx]
        exact Or.inr rfl

theorem of_allM_eq_true (h : xs.allM answer = .ok true) : ∀ x ∈ xs, answer x = .ok true := by
  induction xs with
  | nil => exact List.forall_mem_nil _
  | cons x xs ih =>
      rw [List.allM] at h
      cases hx : answer x with
      | error e =>
          rw [hx] at h
          cases h
      | ok found =>
          rw [hx] at h
          cases found with
          | false => cases h
          | true => exact List.forall_mem_cons.mpr ⟨hx, ih h⟩

end Answers

section Pairs

theorem entryPairs_spec {entries others : Entries Value} {pairs : List (Value × Value)}
    (h : entries.mapM (fun entry => (others.lookup entry.1).map fun w => (entry.2, w)) =
      some pairs) :
    pairs.map Prod.fst = entries.map Prod.snd ∧ ∀ pair ∈ pairs, pair.2 ∈ others.map Prod.snd := by
  induction entries generalizing pairs with
  | nil =>
      cases h
      exact ⟨rfl, List.forall_mem_nil _⟩
  | cons entry entries ih =>
      obtain ⟨name, v⟩ := entry
      rw [List.mapM_cons] at h
      obtain ⟨pair, hpair, h⟩ := Option.bind_eq_some_iff.mp h
      obtain ⟨rest, hrest, h⟩ := Option.bind_eq_some_iff.mp h
      obtain ⟨w, hw, rfl⟩ := Option.map_eq_some_iff.mp hpair
      cases h
      obtain ⟨hfirst, hsecond⟩ := ih hrest
      refine ⟨congrArg (v :: ·) hfirst, List.forall_mem_cons.mpr ⟨?_, hsecond⟩⟩
      obtain ⟨before, behind, rfl, _⟩ := List.lookup_eq_some_iff.mp hw
      simp

theorem equalEntries_eq_all (entries others : Entries Value) :
    equalEntries entries others =
      (entries.mapM fun entry => (others.lookup entry.1).map fun w => (entry.2, w)).elim false
        (·.all fun pair => pair.1.equal pair.2) := by
  induction entries with
  | nil => rfl
  | cons entry entries ih =>
      obtain ⟨name, v⟩ := entry
      rw [equalEntries, ih, List.mapM_cons]
      cases hw : List.lookup name others with
      | none => rfl
      | some w =>
          cases entries.mapM fun entry => (others.lookup entry.1).map fun w => (entry.2, w) with
          | none => exact Bool.and_false _
          | some pairs => rfl

theorem equalItems_eq_all (items others : List Value) :
    equalItems items others =
      (items.length == others.length &&
        (items.zip others).all fun pair => pair.1.equal pair.2) := by
  induction items generalizing others with
  | nil => cases others <;> rfl
  | cons v items ih =>
      cases others with
      | nil => rfl
      | cons w others =>
          have hlength : (items.length + 1 == others.length + 1) =
              (items.length == others.length) := by simp
          rw [equalItems, ih others, Bool.and_left_comm, List.zip_cons_cons, List.all_cons,
            List.length_cons, List.length_cons, hlength]

theorem pairs?_spec {a b : Value} {pairs : List (Value × Value)} (h : a.pairs? b = some pairs) :
    pairs.map Prod.fst = a.parts ∧ ∀ pair ∈ pairs, pair.2 ∈ b.parts := by
  unfold pairs? at h
  split at h
  · split at h
    · rename_i items others hlength
      cases h
      exact ⟨List.map_fst_zip (Nat.le_of_eq hlength), fun pair member => (List.of_mem_zip member).2⟩
    · cases h
  · split at h
    · exact entryPairs_spec h
    · cases h
  · rename_i hlist hdictionary
    split at h
    · rename_i hequal
      cases h
      have hsurface := sameSurface_of_equal hequal
      cases hsurface with
      | list items others => exact absurd rfl (hlist items others rfl)
      | dictionary entries others => exact absurd rfl (hdictionary entries others rfl)
      | _ => exact ⟨rfl, List.forall_mem_nil _⟩
    · cases h

/-- Values are equal if all pairs of their parts are. -/
theorem equal_eq_all (a b : Value) :
    a.equal b = (a.pairs? b).elim false (·.all fun pair => pair.1.equal pair.2) := by
  unfold pairs?
  split
  · rw [equal, equalItems_eq_all]
    split
    · rename_i hlength
      rw [beq_iff_eq.mpr hlength, Bool.true_and]
      rfl
    · rename_i hlength
      rw [beq_eq_false_iff_ne.mpr hlength, Bool.false_and]
      rfl
  · rw [equal, equalEntries_eq_all]
    split
    · rename_i hlength
      rw [beq_iff_eq.mpr hlength, Bool.true_and]
    · rename_i hlength
      rw [beq_eq_false_iff_ne.mpr hlength, Bool.false_and]
      rfl
  · cases a.equal b <;> rfl

theorem pairs?_of_kind_ne {a b : Value} (h : a.kind ≠ b.kind) : a.pairs? b = none := by
  unfold pairs?
  split
  · exact absurd rfl h
  · exact absurd rfl h
  · rw [equal_of_kind_ne h]
    rfl

theorem equalWithin_succ (room : Nat) (a b : Value) :
    equalWithin (room + 1) a b =
      (a.pairs? b).elim (.ok false) (·.allM fun pair => equalWithin room pair.1 pair.2) := by
  rw [equalWithin]
  cases a.pairs? b <;> rfl

end Pairs

/-- Unless it goes too deep, the comparison tells whether the values are equal. -/
theorem equalWithin_eq_ok_or_tooDeep (room : Nat) (a b : Value) :
    equalWithin room a b = .ok (a.equal b) ∨ equalWithin room a b = .error .tooDeep := by
  induction room generalizing a b with
  | zero => exact Or.inr rfl
  | succ room ih =>
      rw [equalWithin_succ, equal_eq_all]
      cases a.pairs? b with
      | none => exact Or.inl rfl
      | some pairs => exact allM_eq_ok_or_error fun pair _ => ih pair.1 pair.2

/-- It is enough that one of the values lies within the limit. -/
theorem equalWithin_of_within {room : Nat} {a b : Value} (h : a.Within room ∨ b.Within room) :
    equalWithin room a b = .ok (a.equal b) := by
  induction room generalizing a b with
  | zero => exact h.elim False.elim False.elim
  | succ room ih =>
      rw [equalWithin_succ, equal_eq_all]
      cases hpairs : a.pairs? b with
      | none => rfl
      | some pairs =>
          obtain ⟨hfirst, hsecond⟩ := pairs?_spec hpairs
          refine allM_eq_ok fun pair member => ih (h.imp (fun ha => ha _ ?_) fun hb => hb _ ?_)
          · exact hfirst ▸ List.mem_map_of_mem member
          · exact hsecond pair member

/-- To find two values equal the comparison goes through all of them. -/
theorem within_of_equalWithin {room : Nat} {a b : Value} (h : equalWithin room a b = .ok true) :
    a.Within room := by
  induction room generalizing a b with
  | zero => cases h
  | succ room ih =>
      rw [equalWithin_succ] at h
      cases hpairs : a.pairs? b with
      | none =>
          rw [hpairs] at h
          cases h
      | some pairs =>
          rw [hpairs] at h
          intro v hv
          rw [← (pairs?_spec hpairs).1] at hv
          obtain ⟨pair, member, rfl⟩ := List.mem_map.mp hv
          exact ih (of_allM_eq_true h pair member)

theorem equalWithin_eq_true_iff {room : Nat} {a b : Value} :
    equalWithin room a b = .ok true ↔ a.equal b = true ∧ a.Within room := by
  constructor
  · intro h
    have hwithin := within_of_equalWithin h
    rw [equalWithin_of_within (Or.inl hwithin)] at h
    exact ⟨Except.ok.inj h, hwithin⟩
  · rintro ⟨hequal, hwithin⟩
    rw [equalWithin_of_within (Or.inl hwithin), hequal]

theorem equalWithin_eq_error {room : Nat} {a b : Value} {failure : Failure}
    (h : equalWithin room a b = .error failure) :
    failure = .tooDeep ∧ ¬a.Within room ∧ ¬b.Within room := by
  have hwithin : ¬(a.Within room ∨ b.Within room) := by
    intro hwithin
    rw [equalWithin_of_within hwithin] at h
    cases h
  refine ⟨?_, not_or.mp hwithin⟩
  rcases equalWithin_eq_ok_or_tooDeep room a b with hok | hdeep
  · cases hok.symm.trans h
  · cases hdeep.symm.trans h
    rfl

theorem equalWithin_symm {room : Nat} {a b : Value} (ha : a.Distinct) (hb : b.Distinct)
    (h : equalWithin room a b = .ok true) : equalWithin room b a = .ok true := by
  -- The first value lies within the limit, which is enough in whatever order they are compared.
  obtain ⟨hequal, hwithin⟩ := equalWithin_eq_true_iff.mp h
  rw [equalWithin_of_within (Or.inr hwithin), equal_comm hb ha, hequal]

theorem equalWithin_trans {room : Nat} {a b c : Value} (ha : a.Distinct) (hb : b.Distinct)
    (hc : c.Distinct) (hab : equalWithin room a b = .ok true)
    (hbc : equalWithin room b c = .ok true) : equalWithin room a c = .ok true := by
  obtain ⟨hab, hwithin⟩ := equalWithin_eq_true_iff.mp hab
  obtain ⟨hbc, _⟩ := equalWithin_eq_true_iff.mp hbc
  exact equalWithin_eq_true_iff.mpr ⟨equal_trans ha b c hb hc hab hbc, hwithin⟩

theorem Reordered.within_iff {v w : Value} (h : Reordered v w) (room : Nat) :
    v.Within room ↔ w.Within room := by
  induction h generalizing room with
  | refl => exact Iff.rfl
  | trans _ _ ih ih' => exact (ih room).trans (ih' room)
  | entries hperm =>
      cases room with
      | zero => exact Iff.rfl
      | succ room => simp only [Within, parts, List.mem_map, hperm.mem_iff]
  | item before behind _ ih =>
      cases room with
      | zero => exact Iff.rfl
      | succ room =>
          simp only [Within, parts, List.forall_mem_append, List.forall_mem_cons, ih room]
  | entry before behind name _ ih =>
      cases room with
      | zero => exact Iff.rfl
      | succ room =>
          simp only [Within, parts, List.map_append, List.map_cons, List.forall_mem_append,
            List.forall_mem_cons, ih room]

theorem Reordered.equal_congr {a b a' b' : Value} (ha : a.Distinct) (hb : b.Distinct)
    (hreordered : a.Reordered a') (hreordered' : b.Reordered b') : a'.equal b' = a.equal b := by
  have ha' := hreordered.distinct ha
  have hb' := hreordered'.distinct hb
  calc a'.equal b' = b'.equal a' := equal_comm ha' hb'
    _ = b.equal a' := (hreordered'.equal_eq hb ha').symm
    _ = a'.equal b := equal_comm hb ha'
    _ = a.equal b := (hreordered.equal_eq ha hb).symm

end Limit

/-- Equality of values is symmetric and transitive, and a value is equal to itself exactly if no
number inside it is a NaN. Values of different kinds are never equal, the order of the entries of
dictionaries at whatever depth plays no part, and numbers are equal as doubles are: the zeros to
each other, a NaN to nothing, and every other number to itself alone. All this is so unless the
comparison goes too deep, which it does only if both values nest deeper than it may go. -/
theorem equality_is_partial_equivalence (limits : Limits) (hlimits : 0 < limits.equality) :
    let same := equalWithin limits.equality
    (∀ a b failure, same a b = .error failure →
      failure = .tooDeep ∧ ¬a.Within limits.equality ∧ ¬b.Within limits.equality) ∧
    (∀ a b : Value, a.Distinct → b.Distinct → (same a b = .ok true ↔ same b a = .ok true)) ∧
    (∀ a b c : Value, a.Distinct → b.Distinct → c.Distinct →
      same a b = .ok true → same b c = .ok true → same a c = .ok true) ∧
    (∀ a : Value, a.Distinct → same a a ≠ .error .tooDeep →
      (same a a = .ok true ↔ ∀ x, a.Holds x → x.isNaN = false)) ∧
    (∀ a b : Value, a.kind ≠ b.kind → same a b = .ok false) ∧
    (∀ a b a' b' : Value, a.Distinct → b.Distinct → a.Reordered a' → b.Reordered b' →
      (same a' b' = .ok true ↔ same a b = .ok true)) ∧
    ∀ x y : Float, ∃ found, same (.number x) (.number y) = .ok found ∧
      (found = true ↔
        x.isNaN = false ∧ y.isNaN = false ∧ (x = y ∨ x = 0 ∧ y = -0 ∨ x = -0 ∧ y = 0)) := by
  intro same
  obtain ⟨room, hroom⟩ : ∃ room, limits.equality = room + 1 := Nat.exists_eq_add_one.mpr hlimits
  refine ⟨fun a b failure h => equalWithin_eq_error h,
    fun a b ha hb => ⟨equalWithin_symm ha hb, equalWithin_symm hb ha⟩,
    fun a b c ha hb hc => equalWithin_trans ha hb hc, ?_, ?_, ?_, ?_⟩
  · intro a ha hdeep
    have hok : same a a = .ok (a.equal a) :=
      (equalWithin_eq_ok_or_tooDeep limits.equality a a).resolve_right hdeep
    rw [hok, Except.ok.injEq]
    exact equal_self_iff ha
  · intro a b hkind
    simp only [same, hroom, equalWithin_succ, pairs?_of_kind_ne hkind]
    rfl
  · intro a b a' b' ha hb hreordered hreordered'
    change equalWithin _ a' b' = _ ↔ equalWithin _ a b = _
    rw [equalWithin_eq_true_iff, equalWithin_eq_true_iff, hreordered.within_iff,
      Reordered.equal_congr ha hb hreordered hreordered']
  · intro x y
    refine ⟨(Value.number x).equal (.number y), ?_, equal_number_iff x y⟩
    apply equalWithin_of_within
    rw [hroom]
    exact Or.inl (List.forall_mem_nil _)

/-- A list that holds a dictionary with a zero in it is equal to the list with the entries the other
way round and the other zero, in both directions, and so to itself; with a NaN in its place it is
not equal even to itself. -/
theorem equality_is_partial_equivalence_zeros :
    let same := equalWithin ({} : Limits).equality
    let a : Value := .list [.dictionary [("p", .number 0), ("q", .void)]]
    let a' : Value := .list [.dictionary [("q", .void), ("p", .number 0)]]
    let b : Value := .list [.dictionary [("p", .number (-0)), ("q", .void)]]
    let c : Value := .list [.dictionary [("p", .number Float.nan), ("q", .void)]]
    a.Distinct ∧ b.Distinct ∧ a.Reordered a' ∧ same a' b = .ok true ∧ same b a' = .ok true ∧
      same a a = .ok true ∧ c.Distinct ∧ same c c = .ok false ∧ same a .void = .ok false := by
  intro same a a' b c
  obtain ⟨_, hsymm, htrans, hself, hkind, horder, _⟩ :=
    equality_is_partial_equivalence {} (by decide)
  have hdistinct (x : Float) :
      (Value.list [.dictionary [("p", .number x), ("q", .void)]]).Distinct := by
    have hentries : (Value.dictionary [("p", .number x), ("q", .void)]).Distinct := by
      apply Distinct.dictionary
      · simp [Entries.names]
      · exact List.forall_mem_cons.mpr ⟨.number x, List.forall_mem_singleton.mpr .void⟩
    exact .list (List.forall_mem_singleton.mpr hentries)
  have hwithin (x : Float) :
      (Value.list [.dictionary [("p", .number x), ("q", .void)]]).Within 330 := by
    have hentries : (Value.dictionary [("p", .number x), ("q", .void)]).Within 329 :=
      List.forall_mem_cons.mpr
        ⟨List.forall_mem_nil _, List.forall_mem_singleton.mpr (List.forall_mem_nil _)⟩
    exact List.forall_mem_singleton.mpr hentries
  have ha : a.Distinct := hdistinct 0
  have hb : b.Distinct := hdistinct (-0)
  have hc : c.Distinct := hdistinct Float.nan
  have hreordered : a.Reordered a' := .item [] [] (.entries (List.Perm.swap _ _ _))
  have hab : same a b = .ok true :=
    equalWithin_eq_true_iff.mpr ⟨by decide +kernel, hwithin 0⟩
  have hba : same b a = .ok true := (hsymm a b ha hb).mp hab
  have hcc : same c c = .ok (c.equal c) := equalWithin_of_within (Or.inl (hwithin Float.nan))
  have hdeep : same c c ≠ .error .tooDeep := by
    rw [hcc]
    rintro ⟨⟩
  have hnan : ¬same c c = .ok true := by
    intro hequal
    have hfalse := (hself c hc hdeep).mp hequal Float.nan
      (.item List.mem_cons_self (.entry List.mem_cons_self .here))
    rw [Float.isNaN_eq_decide_eq_nan] at hfalse
    simp at hfalse
  refine ⟨ha, hb, hreordered, ?_, ?_, htrans a b a ha hb ha hab hba, hc, ?_,
    hkind a .void (by decide)⟩
  · exact (horder a b a' b ha hb hreordered (.refl b)).mpr hab
  · exact (horder b a b a' hb ha (.refl b) hreordered).mpr hba
  · rw [hcc, Except.ok.injEq] at hnan ⊢
    exact Bool.eq_false_iff.mpr hnan

/-- The empty list, inside `n` more lists. -/
def nested : Nat → Value
  | 0 => .list []
  | n + 1 => .list [nested n]

theorem distinct_nested (n : Nat) : (nested n).Distinct := by
  induction n with
  | zero => exact .list (List.forall_mem_nil _)
  | succ n ih => exact .list (List.forall_mem_singleton.mpr ih)

theorem not_holds_nested (n : Nat) (x : Float) : ¬(nested n).Holds x := by
  induction n with
  | zero =>
      rintro ⟨⟩
      contradiction
  | succ n ih =>
      intro h
      cases h with
      | item member h =>
          rw [List.mem_singleton.mp member] at h
          exact ih h

theorem equalWithin_nested {room n : Nat} (h : room ≤ n) :
    equalWithin room (nested n) (nested n) = .error .tooDeep := by
  induction room generalizing n with
  | zero => rfl
  | succ room ih =>
      cases n with
      | zero => cases h
      | succ n =>
          have hpairs : (nested (n + 1)).pairs? (nested (n + 1)) = some [(nested n, nested n)] := rfl
          rw [equalWithin_succ, hpairs, Option.elim_some, List.allM, ih (Nat.le_of_succ_le_succ h)]
          rfl

/-- A value of 360 lists inside one another is not found equal to itself, although it holds no number
at all. -/
theorem deep_list_compared_too_deep :
    (nested 359).Distinct ∧ (∀ x, (nested 359).Holds x → x.isNaN = false) ∧
      equalWithin ({} : Limits).equality (nested 359) (nested 359) = .error .tooDeep :=
  ⟨distinct_nested 359, fun x hx => absurd hx (not_holds_nested 359 x),
    equalWithin_nested (by decide)⟩

end Glass.Value
