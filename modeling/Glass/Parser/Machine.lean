import Glass.Operator
import Glass.Tree

/-!
The parser as a machine that takes one token at a time. What is still open is kept as data: for each
bracket the operations and signs that wait for an operand, and the bracket itself. A token either
moves the machine on, shows that the goal was reached before it, or is the first one that cannot
follow what was read. The machine walks down the token list, so it always ends.
-/

namespace Glass.Parser

/-- Why parsing stopped. -/
inductive Fault where
  /-- A token that cannot stand here, and the kind that alone could, if there is just one. -/
  | unexpected (expected : Option Kind) (found : Token)
  | flawed (found : Token)
  | unsupported (found : Token)
  | endOfInput
  | tooDeep

/-- What is to be parsed: a whole program, one statement, or one expression whose operators, outside
all brackets, bind at least as tightly as `level`. -/
inductive Goal where
  | program
  | statement
  | expression (level : Nat)
  deriving DecidableEq, Repr

def Goal.level : Goal → Nat
  | .program | .statement => 1
  | .expression level => level

inductive Bracket where
  | group
  /-- A call, with the arguments read so far, the last one first. -/
  | call (name : Token) (arguments : List Tree)

/-- How many calls an open bracket keeps open, out of those that `Limits.nesting` allows; a sign keeps
one open. Inside a group there are two calls for each of the seven levels of binary operators, one to
read the level and one to join its operands, and one each for the expression as a whole, its signs and
the operand behind them. The arguments of a call are read by one more. -/
def Bracket.cost : Bracket → Nat
  | .group => 17
  | .call _ _ => 18

/-- A binary operation that has its left operand. -/
structure Operation where
  op : BinaryOp
  token : Token
  left : Tree

def Operation.apply (o : Operation) (right : Tree) : Tree :=
  .binaryOp (.ofToken o.token) o.left right

/-- What waits for an operand inside one bracket, the innermost first. -/
structure Pending where
  operations : List Operation := []
  signs : List Token := []

/-- Apply the operations that bind at least as tightly as `level`. -/
def settle (level : Nat) : (operations : List Operation) → (right : Tree) → List Operation × Tree
  | [], right => ([], right)
  | o :: rest, right =>
      if level ≤ o.op.level then settle level rest (o.apply right) else (o :: rest, right)

/-- Apply all signs in front of an operand. -/
def applySigns (signs : List Token) (operand : Tree) : Tree :=
  signs.foldl (fun tree sign => .unaryOp (.ofToken sign) tree) operand

/-- What the next token means. -/
inductive Phase where
  /-- It starts a statement. -/
  | start
  | operand
  /-- It is the first one behind the opening bracket of a call. -/
  | argument
  /-- It follows a name, and may turn it into a call. -/
  | named (name : Token)
  /-- It follows an operand. -/
  | complete (tree : Tree)

structure State where
  goal : Goal
  /-- The statements that are done, the last one first. -/
  statements : List Tree := []
  /-- The operator and target of an assignment whose value is being read. -/
  target : Option (Token × Tree) := none
  outer : List (Pending × Bracket) := []
  inner : Pending := {}
  phase : Phase

def State.initial : Goal → State
  | .expression level => { goal := .expression level, phase := .operand }
  | goal => { goal, phase := .start }

/-- Behind the opening bracket of a call, which alone is to be parsed. -/
def State.inCall (name : Token) : State where
  goal := .expression atomLevel
  outer := [({}, .call name [])]
  phase := .argument

/-- What the machine does with a token. -/
inductive Move where
  /-- The token is taken. -/
  | shift (next : State)
  /-- The goal is reached, and the token is left. -/
  | accept (tree : Tree)
  | reject (fault : Fault) (taken : Bool)

namespace State

def isProgram (s : State) : Bool := s.goal == .program

/-- The nesting in use. -/
def depth (s : State) : Nat :=
  s.outer.foldl (fun total (pending, bracket) => total + pending.signs.length + bracket.cost)
    s.inner.signs.length

/-- The level that operators must reach to be taken. -/
def floor (s : State) : Nat := if s.outer.isEmpty then s.goal.level else 1

/-- An operand has been read. -/
def finishOperand (s : State) (operand : Tree) : State :=
  { s with
    inner := { s.inner with signs := [] }
    phase := .complete (applySigns s.inner.signs operand) }

/-- Go on unless the nesting allowance is used up. -/
def deepen (limit : Nat) (s : State) : Move :=
  if limit < s.depth then .reject .tooDeep true else .shift s

def openBracket (limit : Nat) (s : State) (bracket : Bracket) (phase : Phase) : Move :=
  deepen limit { s with outer := (s.inner, bracket) :: s.outer, inner := {}, phase }

/-- Take the first token of an operand. -/
def readOperand (limit : Nat) (s : State) (t : Token) : Move :=
  if (UnaryOp.ofKind? t.kind).isSome && s.floor ≤ unaryLevel then
    deepen limit { s with inner := { s.inner with signs := t :: s.inner.signs }, phase := .operand }
  else
    match t.kind with
    | .number => .shift (s.finishOperand (.literal .number [t.payload.child] t))
    | .string => .shift (s.finishOperand (.literal .string [t.payload.child] t))
    | .keyword .trueWord => .shift (s.finishOperand (.literal .boolean [.flag true] t))
    | .keyword .falseWord => .shift (s.finishOperand (.literal .boolean [.flag false] t))
    | .keyword .voidWord => .shift (s.finishOperand (.literal .void [] t))
    | .identifier => .shift { s with phase := .named t }
    | .symbol .leftParen => openBracket limit s .group .operand
    | .flaw _ => .reject (.flawed t) true
    | _ => .reject (.unexpected none t) true

/-- Refuse a token where only a closing bracket can stand. The token is left, unless it is a flaw. -/
def refuseUnclosed (t : Token) : Move :=
  if t.kind.isFlaw then .reject (.flawed t) true
  else .reject (.unexpected (some (.symbol .rightParen)) t) false

/-- Take the token behind a statement. -/
def afterStatement (s : State) (statement : Tree) (t : Token) : Move :=
  if !s.isProgram then .accept statement
  else if t.kind = .symbol .semicolon then
    .shift { goal := s.goal, statements := statement :: s.statements, phase := .start }
  else if t.kind.isFlaw then .reject (.flawed t) true
  else .reject (.unexpected none t) true

/-- The statement that ends with the expression `value`. -/
def statementOf (s : State) (value : Tree) : Tree :=
  match s.target with
  | none => value
  | some (op, target) => .assignment (.ofToken op) target value

/-- Take the token behind an expression that stands in no bracket. -/
def afterExpression (s : State) (value : Tree) (t : Token) : Move :=
  match s.goal with
  | .expression _ => .accept value
  | _ =>
      if t.kind.isAssignment && s.target.isNone then
        if value.label? = some .identifier then
          .shift { s with target := some (t, value), inner := {}, phase := .operand }
        else .reject (.unexpected none t) true
      else s.afterStatement (s.statementOf value) t

/-- Close the innermost bracket, which stands for `operand`. -/
def closeBracket (s : State) (saved : Pending) (outer : List (Pending × Bracket))
    (operand : Tree) : Move :=
  .shift ({ s with outer, inner := saved }.finishOperand operand)

/-- Take the token behind an operand. -/
def afterOperand (s : State) (operand : Tree) (t : Token) : Move :=
  let whole := (settle 0 s.inner.operations operand).2
  match BinaryOp.ofKind? t.kind with
  | some op =>
      if s.floor ≤ op.level then
        let (waiting, left) := settle op.level s.inner.operations operand
        .shift { s with inner := { operations := ⟨op, t, left⟩ :: waiting }, phase := .operand }
      else .accept whole
  | none =>
      match s.outer with
      | [] => s.afterExpression whole t
      | (saved, .group) :: outer =>
          if t.kind = .symbol .rightParen then s.closeBracket saved outer whole
          else refuseUnclosed t
      | (saved, .call name arguments) :: outer =>
          if t.kind = .symbol .comma then
            .shift { s with
              outer := (saved, .call name (whole :: arguments)) :: outer
              inner := {}
              phase := .operand }
          else if t.kind = .symbol .rightParen then
            s.closeBracket saved outer
              (.functionCall (.ofToken name) (whole :: arguments).reverse (.ofToken t))
          else refuseUnclosed t

/-- What the machine does with the token `t`, given the nesting that is allowed. -/
def step (limit : Nat) (s : State) (t : Token) : Move :=
  match s.phase with
  | .start =>
      if t.kind.startsUnsupported then .reject (.unsupported t) true
      else s.readOperand limit t
  | .operand => s.readOperand limit t
  | .argument =>
      match s.outer with
      | (saved, .call name _) :: outer =>
          if t.kind = .symbol .rightParen then
            s.closeBracket saved outer (.functionCall (.ofToken name) [] (.ofToken t))
          else s.readOperand limit t
      | _ => s.readOperand limit t
  | .named name =>
      if t.kind = .symbol .leftParen then openBracket limit s (.call name []) .argument
      else
        let operand := applySigns s.inner.signs (.identifier name)
        (s.finishOperand (.identifier name)).afterOperand operand t
  | .complete operand => s.afterOperand operand t

/-- What the input amounts to if it ends behind the given operand. -/
def finishWith (s : State) (operand : Tree) : Except Fault Tree :=
  if !s.outer.isEmpty then .error .endOfInput
  else
    let statement := s.statementOf (settle 0 s.inner.operations operand).2
    if s.statements.isEmpty then .ok statement
    else .ok (.block (statement :: s.statements).reverse)

/-- What the input amounts to if it ends here. -/
def finish (s : State) : Except Fault Tree :=
  match s.phase with
  | .start => if s.statements.isEmpty then .error .endOfInput else .ok (.block s.statements.reverse)
  | .operand | .argument => .error .endOfInput
  | .named name => s.finishWith (applySigns s.inner.signs (.identifier name))
  | .complete operand => s.finishWith operand

/-- Run the machine. The tokens it has not taken are given back. -/
def run (limit : Nat) : (s : State) → (tokens : List Token) → Except Fault Tree × List Token
  | s, [] => (s.finish, [])
  | s, t :: rest =>
      match s.step limit t with
      | .shift next => run limit next rest
      | .accept tree => (.ok tree, t :: rest)
      | .reject fault true => (.error fault, rest)
      | .reject fault false => (.error fault, t :: rest)

end State

end Glass.Parser
