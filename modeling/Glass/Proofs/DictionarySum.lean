import Glass.Proofs.ValueEquality
import Glass.Value.Operation

/-!
Sums of dictionaries. The two sides of a sum pull apart: the entries of the second count, but the
names of the first come first. Entries whose names are distinct are told by the row of their names
and by what each name leads to, so every law is proved once for the names and once for the look-up.
-/

namespace Glass.Entries

variable {α : Type}

theorem names_nil : names ([] : Entries α) = [] := rfl

theorem names_cons (name : String) (value : α) (rest : Entries α) :
    names ((name, value) :: rest) = name :: names rest := rfl

theorem get?_eq_none_iff {entries : Entries α} {name : String} :
    entries.get? name = none ↔ name ∉ entries.names := by
  rw [mem_names_iff, ← Option.isSome_iff_exists, Option.not_isSome_iff_eq_none]

theorem names_insert (entries : Entries α) (name : String) (value : α) :
    names (insert name value entries) =
      if name ∈ names entries then names entries else names entries ++ [name] := by
  induction entries with
  | nil => simp [insert, names]
  | cons entry entries ih =>
      obtain ⟨first, old⟩ := entry
      rw [insert]
      by_cases hfirst : first = name
      · subst hfirst
        simp [names_cons]
      · rw [if_neg hfirst, names_cons, names_cons, ih]
        by_cases hname : name ∈ names entries
        · simp [hname]
        · simp [hname, Ne.symm hfirst]

/-- The names of the first in their order, and behind them those of the second that are new. -/
theorem names_merge (first : Entries α) {second : Entries α} (h : second.names.Nodup) :
    names (merge first second) = first.names ++ second.names.filter (· ∉ first.names) := by
  induction second generalizing first with
  | nil => exact (List.append_nil _).symm
  | cons entry rest ih =>
      obtain ⟨name, value⟩ := entry
      obtain ⟨hname, hrest⟩ := List.nodup_cons.mp h
      refine (ih (insert name value first) hrest).trans ?_
      rw [names_cons, names_insert, List.filter_cons]
      by_cases hold : name ∈ first.names
      · simp [hold]
      · rw [if_neg hold, if_pos (by simpa using hold), List.append_assoc, List.singleton_append]
        congr 2
        -- The name that was added is not met again.
        apply List.filter_congr
        intro other hother
        have hne : other ≠ name := fun hsame => hname (hsame ▸ hother)
        simp [hne]

theorem get?_merge_of_nodup (first : Entries α) {second : Entries α} (h : second.names.Nodup)
    (name : String) : get? (merge first second) name = (get? second name).or (get? first name) := by
  rw [get?_merge, get?_reverse h]

theorem nodup_names_merge {first second : Entries α} (hfirst : first.names.Nodup)
    (hsecond : second.names.Nodup) : (names (merge first second)).Nodup := by
  rw [names_merge first hsecond]
  apply hfirst.append (hsecond.filter _)
  intro name hname hnew
  simpa [hname] using List.of_mem_filter hnew

/-- Distinct names in the same order that lead to the same make the same entries. -/
theorem eq_of_names {first second : Entries α} (hnodup : first.names.Nodup)
    (hnames : first.names = second.names) (hget : ∀ name, first.get? name = second.get? name) :
    first = second := by
  induction first generalizing second with
  | nil => exact (List.map_eq_nil_iff.mp hnames.symm).symm
  | cons entry rest ih =>
      obtain ⟨name, value⟩ := entry
      obtain ⟨hname, hrest⟩ := List.nodup_cons.mp hnodup
      obtain ⟨⟨name', value'⟩, rest', rfl, rfl, htail⟩ := List.map_eq_cons_iff.mp hnames.symm
      have hnames' : names rest' = names rest := htail
      have hvalue : some value = some value' := by
        simpa only [get?_cons, if_pos] using hget name'
      rw [Option.some.inj hvalue, ih hrest hnames'.symm]
      intro other
      by_cases hother : other = name'
      · subst hother
        rw [get?_eq_none_iff.mpr hname, get?_eq_none_iff.mpr (hnames' ▸ hname)]
      · simpa only [get?_cons, if_neg hother] using hget other

section Laws

variable {a b c : Entries α} (ha : a.names.Nodup)
include ha

theorem merge_assoc (hb : b.names.Nodup) (hc : c.names.Nodup) :
    merge (merge a b) c = merge a (merge b c) := by
  have hbc := nodup_names_merge hb hc
  apply eq_of_names (nodup_names_merge (nodup_names_merge ha hb) hc)
  · rw [names_merge _ hc, names_merge a hb, names_merge a hbc, names_merge b hc,
      List.filter_append, List.filter_filter, List.append_assoc]
    congr 2
    apply List.filter_congr
    intro name _
    by_cases hname : name ∈ a.names <;> simp [hname]
  · intro name
    rw [get?_merge_of_nodup _ hc, get?_merge_of_nodup a hb, get?_merge_of_nodup a hbc,
      get?_merge_of_nodup b hc, Option.or_assoc]

theorem merge_self : merge a a = a := by
  apply eq_of_names (nodup_names_merge ha ha)
  · rw [names_merge a ha]
    simp
  · intro name
    rw [get?_merge_of_nodup a ha, Option.or_self]

theorem nil_merge : merge [] a = a := by
  apply eq_of_names (nodup_names_merge (names_nil ▸ List.nodup_nil) ha)
  · rw [names_merge [] ha, names_nil]
    simp
  · intro name
    rw [get?_merge_of_nodup [] ha]
    exact Option.or_none

end Laws

end Glass.Entries

namespace Glass.Value

theorem equal_dictionary_iff {a b : Entries Value} (ha : a.names.Nodup) (hb : b.names.Nodup) :
    (dictionary a).equal (.dictionary b) = true ↔
      ∀ name, EqualParts (a.get? name) (b.get? name) := by
  rw [equal, Bool.and_eq_true, beq_iff_eq, equalEntries_iff_parts ha hb]

theorem EqualParts.or {v v' w w' : Option Value} (h : EqualParts v w) (h' : EqualParts v' w') :
    EqualParts (v.or v') (w.or w') := by
  cases h with
  | none => exact h'
  | some hequal => exact .some hequal

/-- A sum of equal dictionaries is equal, since each name leads to equal parts. -/
theorem equal_merge {a a' b b' : Entries Value} (ha : a.names.Nodup) (ha' : a'.names.Nodup)
    (hb : b.names.Nodup) (hb' : b'.names.Nodup)
    (hequal : (dictionary a).equal (.dictionary a') = true)
    (hequal' : (dictionary b).equal (.dictionary b') = true) :
    (dictionary (Entries.merge a b)).equal (.dictionary (Entries.merge a' b')) = true := by
  rw [equal_dictionary_iff ha ha'] at hequal
  rw [equal_dictionary_iff hb hb'] at hequal'
  rw [equal_dictionary_iff (Entries.nodup_names_merge ha hb) (Entries.nodup_names_merge ha' hb')]
  intro name
  rw [Entries.get?_merge_of_nodup a hb, Entries.get?_merge_of_nodup a' hb']
  exact (hequal' name).or (hequal name)

/-- The sum of two dictionaries has the names of the first in their order and then those of the
second that are new, each leading to what it leads to in the second or else in the first. Sums do
not depend on how they are bracketed, a dictionary added to itself or to the empty one is itself, and
sums of equal dictionaries are equal. -/
theorem dictionary_sum_laws :
    (∀ a b : Entries Value, a.names.Nodup → b.names.Nodup →
      ∃ sum : Entries Value, (dictionary a).add (.dictionary b) = .ok (.dictionary sum) ∧
        sum.names.Nodup ∧ sum.names = a.names ++ b.names.filter (· ∉ a.names) ∧
        ∀ name, sum.get? name = (b.get? name).or (a.get? name)) ∧
    (∀ a b c : Entries Value, a.names.Nodup → b.names.Nodup → c.names.Nodup →
      ∃ sum, ((dictionary a).add (.dictionary b) >>= fun ab => ab.add (.dictionary c)) = .ok sum ∧
        ((dictionary b).add (.dictionary c) >>= fun bc => (dictionary a).add bc) = .ok sum) ∧
    (∀ a : Entries Value, a.names.Nodup →
      (dictionary a).add (.dictionary a) = .ok (.dictionary a) ∧
      (dictionary a).add (.dictionary []) = .ok (.dictionary a) ∧
      (dictionary []).add (.dictionary a) = .ok (.dictionary a)) ∧
    ∀ a a' b b' : Entries Value,
      a.names.Nodup → a'.names.Nodup → b.names.Nodup → b'.names.Nodup →
      (dictionary a).equal (.dictionary a') = true →
      (dictionary b).equal (.dictionary b') = true →
      ∃ sum sum', (dictionary a).add (.dictionary b) = .ok sum ∧
        (dictionary a').add (.dictionary b') = .ok sum' ∧ sum.equal sum' = true := by
  have hadd (a b : Entries Value) :
      (dictionary a).add (.dictionary b) = .ok (.dictionary (Entries.merge a b)) := rfl
  refine ⟨?_, ?_, ?_, ?_⟩
  · intro a b ha hb
    exact ⟨_, hadd a b, Entries.nodup_names_merge ha hb, Entries.names_merge a hb,
      Entries.get?_merge_of_nodup a hb⟩
  · intro a b c ha hb hc
    refine ⟨_, hadd (Entries.merge a b) c, ?_⟩
    rw [Entries.merge_assoc ha hb hc]
    rfl
  · intro a ha
    rw [hadd, hadd, hadd, Entries.merge_self ha, Entries.nil_merge ha]
    exact ⟨rfl, rfl, rfl⟩
  · intro a a' b b' ha ha' hb hb' hequal hequal'
    exact ⟨_, _, hadd a b, hadd a' b', equal_merge ha ha' hb hb' hequal hequal'⟩

/-- The names that both sides have stay where the first side has them and lead to what the second
side has. A sum with the entries of its first side the other way round, and with the other zero, is
equal to the sum although its names stand in another order. -/
theorem dictionary_sum_laws_overlap :
    let a : Entries Value := [("p", .number 0), ("q", .void)]
    let a' : Entries Value := [("q", .void), ("p", .number (-0))]
    let b : Entries Value := [("r", .void), ("q", .boolean true)]
    let c : Entries Value := [("p", .string "x"), ("s", .void)]
    a.names.Nodup ∧ a'.names.Nodup ∧ b.names.Nodup ∧ c.names.Nodup ∧
      (dictionary a).equal (.dictionary a') = true ∧
      (dictionary b).equal (.dictionary b) = true ∧
      (∃ sum : Entries Value, (dictionary a).add (.dictionary b) = .ok (.dictionary sum) ∧
        sum.names = ["p", "q", "r"] ∧ sum.get? "q" = some (.boolean true)) ∧
      (∃ sum, ((dictionary a).add (.dictionary b) >>= fun ab => ab.add (.dictionary c)) = .ok sum ∧
        ((dictionary b).add (.dictionary c) >>= fun bc => (dictionary a).add bc) = .ok sum) ∧
      (dictionary a).add (.dictionary a) = .ok (.dictionary a) ∧
      ∃ sum sum', (dictionary a).add (.dictionary b) = .ok sum ∧
        (dictionary a').add (.dictionary b) = .ok sum' ∧ sum.equal sum' = true := by
  intro a a' b c
  obtain ⟨hsum, hassoc, hself, hcongr⟩ := dictionary_sum_laws
  have ha : a.names.Nodup := by decide
  have ha' : a'.names.Nodup := by decide
  have hb : b.names.Nodup := by decide
  have hc : c.names.Nodup := by decide
  have hequal : (dictionary a).equal (.dictionary a') = true := by decide +kernel
  have hequal' : (dictionary b).equal (.dictionary b) = true := by decide +kernel
  refine ⟨ha, ha', hb, hc, hequal, hequal', ?_, hassoc a b c ha hb hc, (hself a ha).1,
    hcongr a a' b b ha ha' hb hb hequal hequal'⟩
  obtain ⟨sum, hadd, _, hnames, hget⟩ := hsum a b ha hb
  refine ⟨sum, hadd, hnames.trans (by decide), ?_⟩
  rw [hget]
  rfl

end Glass.Value
