import Glass.Number.Text
import Glass.Operand
import Glass.Scope

/-!
Evaluation of trees. Operands are evaluated from left to right, all of them, and the first failure is
the result. A diagnostic takes the place of the innermost node that has one. Nodes may lie inside one
another only so deep: evaluation is given a room, and each level of nodes takes one of it.
-/

namespace Glass

/-- What evaluation calls a thing that is no node. -/
def Tree.sort : Tree → String
  | .node .. => "Tree"
  | .token .. => "Token"
  | .number _ => "float"
  | .text _ => "str"
  | .flag _ => "bool"

/-- The number that the child of a number node gives. -/
def Tree.toNumber : Tree → Except Failure Float
  | .number x => .ok x
  | .flag b => .ok (if b then 1 else 0)
  | .text word | .token _ word _ =>
      match readNumber? word with
      | some x => .ok x
      | none => .error (.malformed .numberText)
  | .node .. => .error (.malformed .numberChild)

/-- The boolean that the child of a boolean node gives: zero and the empty text are false. -/
def Tree.toBoolean : Tree → Bool
  | .flag b => b
  | .number x => x != 0
  | .text word | .token _ word _ => !word.isEmpty
  | .node .. => true

def Tree.toName : Tree → Except Failure String
  | .token _ word _ => .ok word
  | _ => .error (.malformed .nameChild)

/-- The first child of a leaf. -/
def firstChild : List Tree → Except Failure Tree
  | [] => .error (.malformed .noChild)
  | child :: _ => .ok child

def Label.unsupported (label : Label) : Cause :=
  let words := label.name.map fun c => if c == '_' then ' ' else c
  .unsupported s!"Evaluating {words} is not supported"

/-- The operator that a token child names. -/
def Tree.unaryOp? : Tree → Option UnaryOp
  | .token kindName _ _ => UnaryOp.ofKindName? kindName
  | _ => none

/-- The operator that a token child names. -/
def Tree.binaryOp? : Tree → Option BinaryOp
  | .token kindName _ _ => BinaryOp.ofKindName? kindName
  | _ => none

/-- What a tree comes to, where `eval` gives what its children come to. -/
def evalNode (scope : Scope) (eval : Tree → Except Failure Operand) :
    Tree → Except Failure Operand
  | .node .number children _ => do
      let child ← firstChild children
      return .value (.number (← child.toNumber))
  | .node .string children _ => do
      let child ← firstChild children
      return (Held.child child).toOperand
  | .node .boolean children _ => do
      let child ← firstChild children
      return .value (.boolean child.toBoolean)
  | .node .void _ _ => .ok (.value .void)
  | .node .identifier children _ => do
      let child ← firstChild children
      let name ← child.toName
      match scope.find? name with
      | some value => .ok (.value value)
      | none => .error (.ofCause (.undefinedName name))
  | .node .unaryOp [op, operand] _ =>
      match op.unaryOp? with
      | none => .error (.ofCause (.internal "Parsed invalid unary expression"))
      | some op => do
          let operand ← eval operand
          operand.applyUnary op
  | .node .binaryOp [op, left, right] _ =>
      match op.binaryOp? with
      | none => .error (.ofCause (.internal "Parsed invalid binary operation expression"))
      | some op => do
          let first ← eval left
          let second ← eval right
          first.applyBinary op second
  | .node .unaryOp _ _ | .node .binaryOp _ _ => .error (.malformed .childCount)
  | .node .block children _ => do
      children.forM fun child => discard (eval child)
      return .value .void
  | .node (.unknown name) _ _ => .error (.ofCause (.internal s!"Unknown node kind '{name}'"))
  | .node label _ _ => .error (.ofCause label.unsupported)
  | other => .error (.ofCause (.internal s!"Cannot evaluate {other.sort} outside of a node"))

/-- Say of a failure that it arose in `t`. -/
def Failure.locate (scope : Scope) (t : Tree) : Failure → Failure
  | .diagnostic d =>
      match t.span with
      | .error bad => .badSpan bad
      | .ok span => .diagnostic (d.attach scope.source span scope.filename)
  | failure => failure

/-- What a tree comes to, if its nodes lie no deeper than `room`. -/
def Tree.eval (scope : Scope) : (room : Nat) → Tree → Except Failure Operand
  | 0, _ => .error .tooDeep
  | room + 1, t => (evalNode scope (Tree.eval scope room) t).mapError (.locate scope t)

end Glass
