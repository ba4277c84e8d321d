import Glass.Diagnostic
import Glass.Operator
import Glass.Value

/-!
What operators do with values. Each operator takes certain pairs of kinds and refuses all others; the
one result that depends on more than the kinds is the repetition of a text, which is refused when it
would grow past any bound. Values that are compared outside of programs may nest only so deep.
-/

namespace Glass

/-- A text repeated. The count loses its fraction, and a count that is negative or no number repeats
nothing; there is no result if the count is infinite or the text would be too long. -/
def repeatText? (text : String) (count : Float) : Option String :=
  if count.isInf then none
  else if count.isNaN || Number.isNegative count then some ""
  else
    let times := Number.wholePart count
    if Nat.pow 2 63 ≤ times || Nat.pow 10 15 ≤ times * text.length then none
    else if text.isEmpty then some ""
    else some (String.ofList (List.replicate times text.toList).flatten)

namespace Value

def invalid (op : BinaryOp) (left right : Value) : Cause :=
  .invalidOperation op.spelling left.kind.name right.kind.name

def add : Value → Value → Except Cause Value
  | .number a, .number b => .ok (.number (a + b))
  | .string a, .string b => .ok (.string (a ++ b))
  | .string a, .number b => .ok (.string (a ++ NumberStyle.printed.text b))
  | .number a, .string b => .ok (.string (NumberStyle.printed.text a ++ b))
  | .list a, .list b => .ok (.list (a ++ b))
  | .dictionary a, .dictionary b => .ok (.dictionary (Entries.merge a b))
  | a, b => .error (invalid .add a b)

def multiply : Value → Value → Except Cause Value
  | .number a, .number b => .ok (.number (a * b))
  | .string text, .number count =>
      match repeatText? text count with
      | some repeated => .ok (.string repeated)
      | none => .error (.invalidOperation "*" "string" "number")
  | .number count, .string text =>
      match repeatText? text count with
      | some repeated => .ok (.string repeated)
      | none => .error (.invalidOperation "*" "number" "string")
  | a, b => .error (invalid .multiply a b)

/-- An operation on two numbers. -/
def onNumbers (op : BinaryOp) (f : Float → Float → Value) : Value → Value → Except Cause Value
  | .number a, .number b => .ok (f a b)
  | a, b => .error (invalid op a b)

/-- An operation on two booleans. -/
def onBooleans (op : BinaryOp) (f : Bool → Bool → Bool) : Value → Value → Except Cause Value
  | .boolean a, .boolean b => .ok (.boolean (f a b))
  | a, b => .error (invalid op a b)

def applyBinary : BinaryOp → Value → Value → Except Cause Value
  | .add => add
  | .subtract => onNumbers .subtract fun a b => .number (a - b)
  | .multiply => multiply
  | .divide => onNumbers .divide fun a b => .number (a / b)
  | .remainder => onNumbers .remainder fun a b => .number (Number.remainder a b)
  | .power => onNumbers .power fun a b => .number (Float.pow a b)
  | .equal => fun a b => .ok (.boolean (equal a b))
  | .notEqual => fun a b => .ok (.boolean !(equal a b))
  | .less => onNumbers .less fun a b => .boolean (a < b)
  | .greater => onNumbers .greater fun a b => .boolean (a > b)
  | .lessEqual => onNumbers .lessEqual fun a b => .boolean (a ≤ b)
  | .greaterEqual => onNumbers .greaterEqual fun a b => .boolean (a ≥ b)
  | .both => onBooleans .both and
  | .either => onBooleans .either or

def applyUnary : UnaryOp → Value → Except Cause Value
  | .plus, v => .ok v
  | .minus, .number x => .ok (.number (-x))
  | .negation, .boolean b => .ok (.boolean !b)
  | op, v => .error (.invalidUnaryOperation op.spelling v.kind.name)

/-- The pairs of parts that are left to compare, in order, unless the values already differ: lists by
their lengths, dictionaries by their names, and values without parts as a whole. -/
def pairs? : Value → Value → Option (List (Value × Value))
  | .list items, .list others =>
      if items.length = others.length then some (items.zip others) else none
  | .dictionary entries, .dictionary others =>
      if entries.length = others.length then
        entries.mapM fun entry => (List.lookup entry.1 others).map fun w => (entry.2, w)
      else none
  | a, b => if a.equal b then some [] else none

/-- Whether two values are equal, if they lie no deeper than `room`. No pair is compared after one
that differs. -/
def equalWithin : (room : Nat) → Value → Value → Except Failure Bool
  | 0, _, _ => .error .tooDeep
  | room + 1, a, b =>
      match a.pairs? b with
      | none => .ok false
      | some pairs => pairs.allM fun pair => equalWithin room pair.1 pair.2

/-- An operator applied outside of programs. -/
def applyBinaryWithin (limits : Limits) : BinaryOp → Value → Value → Except Failure Value
  | .equal, a, b => return .boolean (← equalWithin limits.equality a b)
  | .notEqual, a, b => return .boolean !(← equalWithin limits.equality a b)
  | op, a, b => (a.applyBinary op b).mapError .ofCause

end Value

end Glass
