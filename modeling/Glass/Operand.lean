import Glass.Tree
import Glass.Value.Operation

/-!
What operators work on. A node of a tree comes to a value, except that a string node gives a string
that holds its first child as it is, and in a tree that no text has this child can be anything. Such
a string is of the kind string as any other. Operators that refuse strings refuse it, and the others
do with it what can be done with the thing it holds.
-/

namespace Glass

/-- What a string can hold: a child of its node, or a whole number that flags were added up to. -/
inductive Held where
  | child (t : Tree)
  | whole (n : Int)

inductive Operand where
  | value (v : Value)
  /-- A string that holds something other than a text. -/
  | string (content : Held)

instance : Coe Value Operand := ⟨.value⟩

mutual

/-- Whether two trees are the same wherever they stand. Texts and tokens are compared by their words,
two tokens by their kinds too, and a flag counts as a number. -/
def Tree.same : Tree → Tree → Bool
  | .node first children _, .node second others _ =>
      first == second && Tree.sameAll children others
  | .token first word _, .token second other _ => first == second && word == other
  | .token _ word _, .text other | .text word, .token _ other _ | .text word, .text other =>
      word == other
  | .number x, .number y => x == y
  | .number x, .flag b | .flag b, .number x => x == if b then 1 else 0
  | .flag a, .flag b => a == b
  | _, _ => false

/-- Whether two rows have the same trees. -/
def Tree.sameAll : List Tree → List Tree → Bool
  | [], [] => true
  | t :: trees, other :: others => Tree.same t other && Tree.sameAll trees others
  | _, _ => false

end

namespace Held

def word? : Held → Option String
  | .child (.text word) | .child (.token _ word _) => some word
  | _ => none

/-- The number that is held, whole if it came of flags. -/
def number? : Held → Option (Int ⊕ Float)
  | .child (.number x) => some (.inr x)
  | .child (.flag b) => some (.inl (if b then 1 else 0))
  | .whole n => some (.inl n)
  | _ => none

/-- The string that holds this, which is a value if this is a text. -/
def toOperand : Held → Operand
  | .child (.text word) => .value (.string word)
  | held => .string held

def same : Held → Held → Bool
  | .child t, .child other => t.same other
  | a, b =>
      match a.number?, b.number? with
      | some (.inl m), some (.inl n) => m == n
      | some (.inl n), some (.inr x) | some (.inr x), some (.inl n) => Number.isWhole x n
      | _, _ => false

/-- A held number as a double. -/
def toFloat : Int ⊕ Float → Except Malformation Float
  | .inl n =>
      let x := Number.ofWhole n
      if x.isInf then .error .heldRange else .ok x
  | .inr x => .ok x

/-- Texts are put one after the other, and numbers are added. -/
def add (a b : Held) : Except Malformation Held :=
  match a.word?, b.word? with
  | some word, some other => .ok (.child (.text (word ++ other)))
  | _, _ =>
      match a.number?, b.number? with
      | some (.inl m), some (.inl n) => .ok (.whole (m + n))
      | some m, some n => do
          let x ← toFloat m
          let y ← toFloat n
          return .child (.number (x + y))
      | _, _ => .error .heldChild

/-- A text is repeated, and a number multiplied. As with texts the count loses its fraction, there is
no result if it is infinite, and nothing is left if it is not positive. -/
def times (held : Held) (count : Float) : Except Malformation (Option Held) :=
  match held.word? with
  | some word => .ok ((repeatText? word count).map fun text => .child (.text text))
  | none =>
      if count.isInf then .ok none
      else if count.isNaN || count ≤ 0 then .ok (some (.child (.text "")))
      else
        match held.number? with
        | some (.inl n) => .ok (some (.whole (n * Number.wholePart count)))
        | some (.inr x) =>
            .ok (some (.child (.number (x * Number.ofWhole (Number.wholePart count)))))
        | none => .error .heldChild

end Held

namespace Operand

def kind : Operand → ValueKind
  | .value v => v.kind
  | .string _ => .string

/-- What a string holds. -/
def held? : Operand → Option Held
  | .value (.string text) => some (.child (.text text))
  | .value _ => none
  | .string content => some content

/-- The value that an operand can be shown as. -/
def toValue : Operand → Except Failure Value
  | .value v => .ok v
  | .string content =>
      match content.word? with
      | some word => .ok (.string word)
      | none => .error (.malformed .heldChild)

/-- What an operator makes of values. -/
def ofResult (result : Except Cause Value) : Except Failure Operand :=
  (result.map .value).mapError .ofCause

def invalid (op : BinaryOp) (left right : Operand) : Failure :=
  .ofCause (.invalidOperation op.spelling left.kind.name right.kind.name)

/-- Whether two strings hold the same. -/
def same (a b : Operand) : Bool :=
  match a.held?, b.held? with
  | some first, some second => first.same second
  | _, _ => false

/-- What an operand adds to a string; a number adds its printed form. -/
def addend? : Operand → Option Held
  | .value (.number x) => some (.child (.text (NumberStyle.printed.text x)))
  | operand => operand.held?

def add (a b : Operand) : Except Failure Operand :=
  match a.addend?, b.addend? with
  | some first, some second => ((first.add second).map Held.toOperand).mapError .malformed
  | _, _ => .error (invalid .add a b)

def multiply (a b : Operand) : Except Failure Operand :=
  match a, b with
  | .string content, .value (.number count) | .value (.number count), .string content =>
      match content.times count with
      | .ok (some held) => .ok held.toOperand
      | .ok none => .error (invalid .multiply a b)
      | .error m => .error (.malformed m)
  | _, _ => .error (invalid .multiply a b)

def applyBinary (op : BinaryOp) : Operand → Operand → Except Failure Operand
  | .value a, .value b => ofResult (a.applyBinary op b)
  | a, b =>
      match op with
      | .add => add a b
      | .multiply => multiply a b
      | .equal => .ok (.value (.boolean (same a b)))
      | .notEqual => .ok (.value (.boolean !(same a b)))
      | _ => .error (invalid op a b)

def applyUnary (op : UnaryOp) : Operand → Except Failure Operand
  | .value v => ofResult (v.applyUnary op)
  | .string content =>
      match op with
      | .plus => .ok (.string content)
      | _ => .error (.ofCause (.invalidUnaryOperation op.spelling ValueKind.string.name))

/-- It makes no difference to an operator whether its first operand is the value or a string that
holds the text. -/
theorem applyBinary_text_left (op : BinaryOp) (text : String) (b : Operand) :
    (string (.child (.text text))).applyBinary op b = (value (.string text)).applyBinary op b := by
  cases b with
  | string content => cases op <;> rfl
  | value v =>
      cases op
      case multiply =>
        cases v
        case number count =>
          simp only [applyBinary, multiply, Held.times, Held.word?, Value.applyBinary, Value.multiply]
          cases repeatText? text count <;> rfl
        all_goals rfl
      all_goals cases v <;> rfl

theorem applyBinary_text_right (op : BinaryOp) (a : Operand) (text : String) :
    a.applyBinary op (string (.child (.text text))) = a.applyBinary op (value (.string text)) := by
  cases a with
  | string content => cases op <;> rfl
  | value v =>
      cases op
      case multiply =>
        cases v
        case number count =>
          simp only [applyBinary, multiply, Held.times, Held.word?, Value.applyBinary, Value.multiply]
          cases repeatText? text count <;> rfl
        all_goals rfl
      all_goals cases v <;> rfl

end Operand

end Glass
