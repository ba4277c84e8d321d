import Glass.Token

/-!
Trees. A node has a label, children and, if it is known, its place in the text; a child is another
node, a token, or a bare value of a literal. Nothing here demands that a node has the children its
label calls for: that is for the parser to provide and for evaluation to find out.
-/

namespace Glass

inductive Label where
  | number | string | boolean | void | identifier | unaryOp | binaryOp
  | assignment | functionCall | functionDefinition | returning | branch | whileLoop | forLoop | block
  | unknown (name : String)
  deriving DecidableEq, Repr

def Label.name : Label → String
  | .number => "number"
  | .string => "string"
  | .boolean => "boolean"
  | .void => "void"
  | .identifier => "identifier"
  | .unaryOp => "unary_op"
  | .binaryOp => "binary_op"
  | .assignment => "assignment"
  | .functionCall => "function_call"
  | .functionDefinition => "function_definition"
  | .returning => "return"
  | .branch => "if"
  | .whileLoop => "while"
  | .forLoop => "for"
  | .block => "block"
  | .unknown name => name

/-- The labels that have a meaning. -/
def Label.known : List Label :=
  [.number, .string, .boolean, .void, .identifier, .unaryOp, .binaryOp, .assignment, .functionCall,
    .functionDefinition, .returning, .branch, .whileLoop, .forLoop, .block]

def Label.ofName (name : String) : Label :=
  (Label.known.find? fun label => label.name == name).getD (.unknown name)

/-- Where a node or token stands. Places that come from outside may have ends that form no span. -/
structure Place where
  extent : Except BadSpan Span
  line : Nat
  column : Nat

inductive Tree where
  | node (label : Label) (children : List Tree) (place : Option Place)
  | token (kindName : String) (text : String) (place : Option Place)
  | number (value : Float)
  | text (value : String)
  | flag (value : Bool)

/-- What a literal's token carries, as a child of the literal. -/
def Payload.child : Payload → Tree
  | .number x => .number x
  | .text s => .text s

namespace Tree

def label? : Tree → Option Label
  | .node label _ _ => some label
  | _ => none

def children : Tree → List Tree
  | .node _ children _ => children
  | _ => []

def place? : Tree → Option Place
  | .node _ _ place => place
  | .token _ _ place => place
  | _ => none

/-- The span of a node or token, if it has a place. -/
def span (t : Tree) : Except BadSpan (Option Span) :=
  match t.place? with
  | none => .ok none
  | some place => place.extent.map some

/-- The span, where ends that form none count as absent. -/
def span? (t : Tree) : Option Span := t.place?.bind fun place => place.extent.toOption

/-- A token as a child of a node. -/
def ofToken (t : Token) : Tree :=
  .token t.kind.name t.payload.toText (some ⟨.ok t.span, t.line, t.column⟩)

/-- A node that reaches from `first` to `last` and stands where `first` does. -/
def spanning (label : Label) (children : List Tree) (first last : Tree) : Tree :=
  .node label children <|
    match first.place?, first.span?, last.span? with
    | some place, some s, some t => some { place with extent := .ok (s.cover t) }
    | _, _, _ => none

/-- A literal standing where its token does. -/
def literal (label : Label) (children : List Tree) (t : Token) : Tree :=
  .node label children (some ⟨.ok t.span, t.line, t.column⟩)

def identifier (t : Token) : Tree :=
  let name := ofToken t
  spanning .identifier [name] name name

def unaryOp (op operand : Tree) : Tree := spanning .unaryOp [op, operand] op operand

def binaryOp (op left right : Tree) : Tree := spanning .binaryOp [op, left, right] left right

def assignment (op target value : Tree) : Tree :=
  spanning .assignment [op, target, value] target value

def functionCall (name : Tree) (arguments : List Tree) (closer : Tree) : Tree :=
  spanning .functionCall (name :: arguments) name closer

/-- A block reaches from its first statement to its last; an empty one stands nowhere. -/
def block (statements : List Tree) : Tree :=
  match statements.head?, statements.getLast? with
  | some first, some last => spanning .block statements first last
  | _, _ => .node .block [] none

mutual

/-- The first node, in the order in which nodes open, that has one of the given label names. -/
def find? (names : List String) : Tree → Option Tree
  | t@(.node label children _) =>
      if names.contains label.name then some t else findIn? names children
  | _ => none

/-- The first such node of a row of trees. -/
def findIn? (names : List String) : List Tree → Option Tree
  | [] => none
  | t :: rest => (find? names t).or (findIn? names rest)

end

mutual

/-- How many nodes lie on the longest way down. -/
def height : Tree → Nat
  | .node _ children _ => heightOfAll children + 1
  | _ => 0

/-- The largest height in a row of trees. -/
def heightOfAll : List Tree → Nat
  | [] => 0
  | t :: rest => max t.height (heightOfAll rest)

end

end Tree

end Glass
