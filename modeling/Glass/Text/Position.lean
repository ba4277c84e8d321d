/-!
Places in a text. Offsets count characters from zero, lines and columns count from one, and only a
line feed ends a line.
-/

namespace Glass

structure Position where
  offset : Nat := 0
  line : Nat := 1
  column : Nat := 1
  deriving DecidableEq, Repr

/-- The place just behind `c`, when `c` stands at `p`. -/
def Position.step (p : Position) (c : Char) : Position :=
  if c = '\n' then ⟨p.offset + 1, p.line + 1, 1⟩
  else ⟨p.offset + 1, p.line, p.column + 1⟩

/-- The place just behind `text`, when `text` starts at `p`. -/
def Position.after (p : Position) (text : List Char) : Position :=
  text.foldl Position.step p

@[simp] theorem Position.after_nil (p : Position) : p.after [] = p := rfl

@[simp] theorem Position.after_cons (p : Position) (c : Char) (text : List Char) :
    p.after (c :: text) = (p.step c).after text := rfl

theorem Position.after_append (p : Position) (first second : List Char) :
    p.after (first ++ second) = (p.after first).after second := by
  simp [Position.after]

@[simp] theorem Position.offset_step (p : Position) (c : Char) :
    (p.step c).offset = p.offset + 1 := by
  unfold Position.step
  split <;> rfl

@[simp] theorem Position.offset_after (p : Position) (text : List Char) :
    (p.after text).offset = p.offset + text.length := by
  induction text generalizing p with
  | nil => rfl
  | cons c text ih =>
      rw [Position.after_cons, ih, Position.offset_step, List.length_cons]
      omega

end Glass
