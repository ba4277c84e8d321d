/-!
Blank characters, as they are trimmed from quoted source text: the ASCII controls from tab to
carriage return and from the file separator up, the space, and the spaces and line separators
beyond ASCII. The zero-width characters are not blank.
-/

namespace Glass

/-- First and last code point of each run of blank characters, in ascending order. -/
def blankRanges : List (Nat × Nat) :=
  [(0x9, 0xd), (0x1c, 0x20), (0x85, 0x85), (0xa0, 0xa0), (0x1680, 0x1680), (0x2000, 0x200a),
    (0x2028, 0x2029), (0x202f, 0x202f), (0x205f, 0x205f), (0x3000, 0x3000)]

def isBlank (c : Char) : Bool :=
  blankRanges.any fun (first, last) => first ≤ c.toNat && c.toNat ≤ last

/-- `text` without the characters at its end for which `p` holds. -/
def trimEnd (p : Char → Bool) (text : List Char) : List Char :=
  (text.reverse.dropWhile p).reverse

/-- What is trimmed is a run of the one character. -/
theorem eq_trimEnd_append (c : Char) (text : List Char) :
    ∃ k, text = trimEnd (· == c) text ++ List.replicate k c := by
  refine ⟨(text.reverse.takeWhile (· == c)).length, ?_⟩
  have hrun : text.reverse.takeWhile (· == c) =
      List.replicate (text.reverse.takeWhile (· == c)).length c := by
    rw [List.eq_replicate_iff]
    refine ⟨rfl, fun b member => ?_⟩
    exact eq_of_beq (List.all_eq_true.mp List.all_takeWhile b member)
  have hsplit := congrArg List.reverse
    (@List.takeWhile_append_dropWhile _ (· == c) text.reverse)
  rw [hrun, List.reverse_append, List.reverse_replicate, List.reverse_reverse] at hsplit
  exact hsplit.symm

theorem trimEnd_of_getLast {p : Char → Bool} {text : List Char}
    (h : ∀ c, text.getLast? = some c → p c = false) : trimEnd p text = text := by
  rcases text.eq_nil_or_concat with rfl | ⟨front, c, rfl⟩
  · rfl
  · have hc := h c (by simp)
    simp [trimEnd, hc]

/-- `text` without the characters at its two ends for which `p` holds. -/
def trim (p : Char → Bool) (text : List Char) : List Char :=
  trimEnd p (text.dropWhile p)

theorem trim_of_ends {p : Char → Bool} {text : List Char}
    (hfirst : ∀ c, text.head? = some c → p c = false)
    (hlast : ∀ c, text.getLast? = some c → p c = false) : trim p text = text := by
  cases text with
  | nil => rfl
  | cons c rest =>
      rw [trim, List.dropWhile_cons_of_neg (by simp [hfirst c rfl])]
      exact trimEnd_of_getLast hlast

/-- `text` without the blanks at its two ends. -/
def trimBlanks (text : List Char) : List Char := trim isBlank text

end Glass
