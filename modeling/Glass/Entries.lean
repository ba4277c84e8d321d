/-!
Named entries in the order in which their names first came. Giving a name a new entry keeps its place.
-/

namespace Glass

abbrev Entries (α : Type) := List (String × α)

namespace Entries

variable {α : Type}

def names (entries : Entries α) : List String := entries.map Prod.fst

def get? (entries : Entries α) (name : String) : Option α := List.lookup name entries

def insert (name : String) (value : α) : Entries α → Entries α
  | [] => [(name, value)]
  | (other, old) :: rest =>
      if other = name then (name, value) :: rest else (other, old) :: insert name value rest

/-- The entries of both, those of `second` counting where the two share a name. -/
def merge (first second : Entries α) : Entries α :=
  second.foldl (fun entries (name, value) => insert name value entries) first

theorem get?_cons (entries : Entries α) (name other : String) (value : α) :
    get? ((name, value) :: entries) other =
      if other = name then some value else get? entries other := by
  rw [get?, List.lookup_cons]
  by_cases h : other = name
  · rw [if_pos h, beq_iff_eq.mpr h]
  · rw [if_neg h, beq_false_of_ne h, get?]

theorem get?_insert (entries : Entries α) (name other : String) (value : α) :
    get? (insert name value entries) other =
      if other = name then some value else get? entries other := by
  induction entries with
  | nil => exact get?_cons [] name other value
  | cons entry entries ih =>
      obtain ⟨first, old⟩ := entry
      unfold insert
      split
      · rename_i hfirst
        subst hfirst
        simp only [get?_cons]
        split <;> rfl
      · rename_i hne
        simp only [get?_cons, ih]
        split
        · rename_i hother
          rw [hother, if_neg hne]
        · rfl

theorem get?_append (first second : Entries α) (name : String) :
    get? (first ++ second) name = (get? first name).or (get? second name) :=
  List.lookup_append

/-- Of the entries of `second` for a name the last counts, and of `first` if there is none. -/
theorem get?_merge (first second : Entries α) (name : String) :
    get? (merge first second) name = (get? second.reverse name).or (get? first name) := by
  induction second generalizing first with
  | nil => rfl
  | cons entry rest ih =>
      obtain ⟨new, value⟩ := entry
      rw [List.reverse_cons, get?_append, Option.or_assoc]
      refine (ih (insert new value first)).trans (congrArg _ ?_)
      rw [get?_insert, get?_cons]
      split <;> rfl

/-- Where every name has one entry, the order of the entries does not matter to a name. -/
theorem get?_reverse {entries : Entries α} (h : (names entries).Nodup) (name : String) :
    get? entries.reverse name = get? entries name := by
  induction entries with
  | nil => rfl
  | cons entry rest ih =>
      obtain ⟨first, value⟩ := entry
      obtain ⟨hfirst, hrest⟩ := List.nodup_cons.mp h
      rw [List.reverse_cons, get?_append, ih hrest, get?_cons, get?_cons]
      split
      · rename_i hname
        subst hname
        have hnone : get? rest name = none := List.lookup_eq_none_iff.mpr fun entry hentry =>
          bne_iff_ne.mpr fun hsame => hfirst (List.mem_map.mpr ⟨entry, hentry, hsame.symm⟩)
        rw [hnone]
        rfl
      · exact Option.or_none

theorem mem_names_iff {entries : Entries α} {name : String} :
    name ∈ names entries ↔ ∃ value, get? entries name = some value := by
  rw [← Option.isSome_iff_exists, get?, List.lookup_isSome_iff, names, List.mem_map]
  constructor
  · rintro ⟨entry, member, hname⟩
    exact ⟨entry, member, beq_iff_eq.mpr hname.symm⟩
  · rintro ⟨entry, member, hname⟩
    exact ⟨entry, member, (beq_iff_eq.mp hname).symm⟩

/-- Where every name has one entry, that entry is the one that is found. -/
theorem get?_eq_some_iff {entries : Entries α} (h : (names entries).Nodup) {name : String}
    {value : α} : get? entries name = some value ↔ (name, value) ∈ entries := by
  induction entries with
  | nil => simp [get?]
  | cons entry rest ih =>
      obtain ⟨first, old⟩ := entry
      obtain ⟨hfirst, hrest⟩ := List.nodup_cons.mp h
      rw [get?_cons, List.mem_cons, Prod.mk.injEq]
      by_cases hname : name = first
      · subst hname
        have hnot : (name, value) ∉ rest := fun member =>
          hfirst (List.mem_map.mpr ⟨(name, value), member, rfl⟩)
        simp [hnot, eq_comm]
      · rw [if_neg hname, ih hrest]
        simp [hname]

end Entries

end Glass
