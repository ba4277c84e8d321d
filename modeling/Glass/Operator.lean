import Glass.Token

/-!
Operators and how tightly they bind. There are seven levels of binary operators, from `or` to the
power, each of them left associative; signs and `not` bind tighter than all of these.
-/

namespace Glass

inductive BinaryOp where
  | add | subtract | multiply | divide | remainder | power
  | equal | notEqual | less | greater | lessEqual | greaterEqual
  | both | either
  deriving DecidableEq, Repr

def BinaryOp.kind : BinaryOp → Kind
  | .add => .symbol .plus
  | .subtract => .symbol .minus
  | .multiply => .symbol .star
  | .divide => .symbol .slash
  | .remainder => .symbol .percent
  | .power => .symbol .power
  | .equal => .symbol .equal
  | .notEqual => .symbol .notEqual
  | .less => .symbol .less
  | .greater => .symbol .greater
  | .lessEqual => .symbol .lessEqual
  | .greaterEqual => .symbol .greaterEqual
  | .both => .keyword .andWord
  | .either => .keyword .orWord

def BinaryOp.all : List BinaryOp :=
  [.add, .subtract, .multiply, .divide, .remainder, .power, .equal, .notEqual, .less, .greater,
    .lessEqual, .greaterEqual, .both, .either]

theorem BinaryOp.mem_all (op : BinaryOp) : op ∈ BinaryOp.all := by
  cases op <;> decide

def BinaryOp.ofKind? (kind : Kind) : Option BinaryOp :=
  BinaryOp.all.find? fun op => op.kind = kind

@[simp] theorem BinaryOp.ofKind?_kind (op : BinaryOp) : BinaryOp.ofKind? op.kind = some op := by
  cases op <;> rfl

/-- The operator whose token kind has the given name. -/
def BinaryOp.ofKindName? (name : String) : Option BinaryOp :=
  BinaryOp.all.find? fun op => op.kind.name == name

def BinaryOp.spelling (op : BinaryOp) : String := op.kind.describe

/-- How tightly an operator binds; a larger level binds tighter. -/
def BinaryOp.level : BinaryOp → Nat
  | .either => 1
  | .both => 2
  | .equal | .notEqual => 3
  | .less | .greater | .lessEqual | .greaterEqual => 4
  | .add | .subtract => 5
  | .multiply | .divide | .remainder => 6
  | .power => 7

/-- The level of expressions that may start with a sign or `not`. -/
def unaryLevel : Nat := 8

/-- The level of expressions that are no operation at all. -/
def atomLevel : Nat := 9

inductive UnaryOp where
  | plus | minus | negation
  deriving DecidableEq, Repr

def UnaryOp.kind : UnaryOp → Kind
  | .plus => .symbol .plus
  | .minus => .symbol .minus
  | .negation => .keyword .notWord

def UnaryOp.all : List UnaryOp := [.plus, .minus, .negation]

theorem UnaryOp.mem_all (op : UnaryOp) : op ∈ UnaryOp.all := by
  cases op <;> decide

def UnaryOp.ofKind? (kind : Kind) : Option UnaryOp :=
  UnaryOp.all.find? fun op => op.kind = kind

@[simp] theorem UnaryOp.ofKind?_kind (op : UnaryOp) : UnaryOp.ofKind? op.kind = some op := by
  cases op <;> rfl

/-- The operator whose token kind has the given name. -/
def UnaryOp.ofKindName? (name : String) : Option UnaryOp :=
  UnaryOp.all.find? fun op => op.kind.name == name

def UnaryOp.spelling (op : UnaryOp) : String := op.kind.describe

end Glass
