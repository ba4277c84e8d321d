import Glass.Proofs.PrintedExpression

/-!
Parsing does not look at places. Put every token at the origin of the text: each function of the
machine then gives what it gave before, put at the origin too. So the kinds and payloads of the
tokens alone decide the moves and what they come to, a tree or a fault, as far as these do not speak
of places.
-/

namespace Glass

/-- The span of no text at an offset. -/
def Span.empty (offset : Nat) : Span := ⟨offset, offset, Nat.le_refl offset⟩

def Token.atOrigin (t : Token) : Token := { t with span := .empty 0, line := 0, column := 0 }

theorem Token.kind_atOrigin (t : Token) : t.atOrigin.kind = t.kind := rfl

theorem Token.payload_atOrigin (t : Token) : t.atOrigin.payload = t.payload := rfl

/-- Ends that form no span stay as they are. -/
def Place.atOrigin (p : Place) : Place := ⟨p.extent.map fun _ => .empty 0, 0, 0⟩

theorem Token.map_atOrigin_of_content {ts us : List Token}
    (h : ts.map Token.content = us.map Token.content) :
    ts.map Token.atOrigin = us.map Token.atOrigin := by
  have hfactor : Token.atOrigin =
      (fun content => ⟨content.1, content.2, .empty 0, 0, 0⟩) ∘ Token.content := rfl
  rw [hfactor, ← List.map_map, h, List.map_map]

namespace Tree

mutual

/-- The tree with all places moved to the origin. -/
def atOrigin : Tree → Tree
  | .node label children place => .node label (atOriginAll children) (place.map Place.atOrigin)
  | .token kindName spelling place => .token kindName spelling (place.map Place.atOrigin)
  | leaf => leaf

def atOriginAll : List Tree → List Tree
  | [] => []
  | t :: rest => t.atOrigin :: atOriginAll rest

end

theorem atOriginAll_eq_map (trees : List Tree) : atOriginAll trees = trees.map atOrigin := by
  induction trees with
  | nil => rfl
  | cons t rest ih => rw [atOriginAll, ih, List.map_cons]

mutual

theorem unplaced_atOrigin (t : Tree) : t.atOrigin.unplaced = t.unplaced := by
  match t with
  | .node label children place => rw [atOrigin, unplaced, unplaced, unplacedAll_atOrigin children]
  | .token _ _ _ | .number _ | .text _ | .flag _ => rfl

theorem unplacedAll_atOrigin (trees : List Tree) :
    unplacedAll (atOriginAll trees) = unplacedAll trees := by
  match trees with
  | [] => rfl
  | t :: rest =>
      rw [atOriginAll, unplacedAll, unplacedAll, unplaced_atOrigin t, unplacedAll_atOrigin rest]

end

theorem unplaced_eq_of_atOrigin_eq {t u : Tree} (h : t.atOrigin = u.atOrigin) :
    t.unplaced = u.unplaced := by
  rw [← unplaced_atOrigin t, h, unplaced_atOrigin]

@[simp] theorem label?_atOrigin (t : Tree) : t.atOrigin.label? = t.label? := by
  cases t <;> rfl

theorem place?_atOrigin (t : Tree) : t.atOrigin.place? = t.place?.map Place.atOrigin := by
  cases t <;> rfl

theorem span?_atOrigin (t : Tree) : t.atOrigin.span? = t.span?.map fun _ => .empty 0 := by
  rw [span?, place?_atOrigin, span?]
  cases t.place? with
  | none => rfl
  | some place =>
      rcases place with ⟨_ | _, _, _⟩ <;> rfl

@[simp] theorem atOrigin_ofToken (t : Token) : (ofToken t).atOrigin = ofToken t.atOrigin := rfl

@[simp] theorem atOrigin_child (payload : Payload) : payload.child.atOrigin = payload.child := by
  cases payload <;> rfl

@[simp] theorem atOrigin_flag (value : Bool) : (flag value).atOrigin = flag value := rfl

/-- A node between two trees moves with them. -/
@[simp] theorem atOrigin_spanning (label : Label) (children : List Tree) (first last : Tree) :
    (spanning label children first last).atOrigin =
      spanning label (children.map atOrigin) first.atOrigin last.atOrigin := by
  simp only [spanning, atOrigin, atOriginAll_eq_map, place?_atOrigin, span?_atOrigin]
  cases first.place? <;> cases first.span? <;> cases last.span? <;> rfl

@[simp] theorem atOrigin_literal (label : Label) (children : List Tree) (t : Token) :
    (literal label children t).atOrigin = literal label (children.map atOrigin) t.atOrigin := by
  simp only [literal, atOrigin, atOriginAll_eq_map]
  rfl

@[simp] theorem atOrigin_identifier (t : Token) :
    (identifier t).atOrigin = identifier t.atOrigin := by
  simp [identifier]

@[simp] theorem atOrigin_unaryOp (op operand : Tree) :
    (unaryOp op operand).atOrigin = unaryOp op.atOrigin operand.atOrigin := by
  simp [unaryOp]

@[simp] theorem atOrigin_binaryOp (op left right : Tree) :
    (binaryOp op left right).atOrigin = binaryOp op.atOrigin left.atOrigin right.atOrigin := by
  simp [binaryOp]

@[simp] theorem atOrigin_assignment (op target value : Tree) :
    (assignment op target value).atOrigin =
      assignment op.atOrigin target.atOrigin value.atOrigin := by
  simp [assignment]

@[simp] theorem atOrigin_functionCall (name : Tree) (arguments : List Tree) (closer : Tree) :
    (functionCall name arguments closer).atOrigin =
      functionCall name.atOrigin (arguments.map atOrigin) closer.atOrigin := by
  simp [functionCall]

@[simp] theorem atOrigin_block (statements : List Tree) :
    (block statements).atOrigin = block (statements.map atOrigin) := by
  simp only [block, List.head?_map, List.getLast?_map]
  cases statements.head? with
  | none => rfl
  | some first =>
      cases statements.getLast? with
      | none => rfl
      | some last => exact atOrigin_spanning ..

end Tree

namespace Parser

def Operation.atOrigin (o : Operation) : Operation := ⟨o.op, o.token.atOrigin, o.left.atOrigin⟩

def Pending.atOrigin (p : Pending) : Pending :=
  ⟨p.operations.map Operation.atOrigin, p.signs.map Token.atOrigin⟩

def Bracket.atOrigin : Bracket → Bracket
  | .group => .group
  | .call name arguments => .call name.atOrigin (arguments.map Tree.atOrigin)

def Phase.atOrigin : Phase → Phase
  | .named name => .named name.atOrigin
  | .complete tree => .complete tree.atOrigin
  | phase => phase

def State.atOrigin (s : State) : State where
  goal := s.goal
  statements := s.statements.map Tree.atOrigin
  target := s.target.map (Prod.map Token.atOrigin Tree.atOrigin)
  outer := s.outer.map (Prod.map Pending.atOrigin Bracket.atOrigin)
  inner := s.inner.atOrigin
  phase := s.phase.atOrigin

def Fault.atOrigin : Fault → Fault
  | .unexpected expected found => .unexpected expected found.atOrigin
  | .flawed found => .flawed found.atOrigin
  | .unsupported found => .unsupported found.atOrigin
  | fault => fault

def Move.atOrigin : Move → Move
  | .shift next => .shift next.atOrigin
  | .accept tree => .accept tree.atOrigin
  | .reject fault taken => .reject fault.atOrigin taken

/-- A tree or a fault, moved to the origin. -/
def outcomeAtOrigin : Except Fault Tree → Except Fault Tree
  | .ok tree => .ok tree.atOrigin
  | .error fault => .error fault.atOrigin

theorem atOrigin_apply (o : Operation) (right : Tree) :
    (o.apply right).atOrigin = o.atOrigin.apply right.atOrigin := by
  simp [Operation.apply, Operation.atOrigin]

theorem settle_atOrigin (level : Nat) (operations : List Operation) (right : Tree) :
    settle level (operations.map Operation.atOrigin) right.atOrigin =
      Prod.map (List.map Operation.atOrigin) Tree.atOrigin (settle level operations right) := by
  induction operations generalizing right with
  | nil => rfl
  | cons o rest ih =>
      have hlevel : o.atOrigin.op = o.op := rfl
      rw [List.map_cons, settle, settle, hlevel, ← atOrigin_apply, ih]
      split <;> rfl

@[simp] theorem atOrigin_applySigns (signs : List Token) (operand : Tree) :
    (applySigns signs operand).atOrigin =
      applySigns (signs.map Token.atOrigin) operand.atOrigin := by
  induction signs generalizing operand with
  | nil => rfl
  | cons sign rest ih =>
      rw [List.map_cons]
      simp only [applySigns, List.foldl_cons] at ih ⊢
      rw [ih, Tree.atOrigin_unaryOp, Tree.atOrigin_ofToken]

namespace State

variable (limit : Nat) (s : State)

theorem goal_atOrigin : s.atOrigin.goal = s.goal := rfl

theorem statements_atOrigin : s.atOrigin.statements = s.statements.map Tree.atOrigin := rfl

theorem outer_atOrigin :
    s.atOrigin.outer = s.outer.map (Prod.map Pending.atOrigin Bracket.atOrigin) := rfl

theorem operations_atOrigin :
    s.atOrigin.inner.operations = s.inner.operations.map Operation.atOrigin := rfl

theorem phase_atOrigin : s.atOrigin.phase = s.phase.atOrigin := rfl

theorem depth_atOrigin : s.atOrigin.depth = s.depth := by
  have hcost (b : Bracket) : b.atOrigin.cost = b.cost := by cases b <;> rfl
  simp [depth_eq, State.atOrigin, Pending.atOrigin, List.foldr_map, Prod.map, hcost]

theorem floor_atOrigin : s.atOrigin.floor = s.floor := by
  simp [floor, State.atOrigin]

theorem atOrigin_finishOperand (operand : Tree) :
    (s.finishOperand operand).atOrigin = s.atOrigin.finishOperand operand.atOrigin := by
  simp [finishOperand, State.atOrigin, Pending.atOrigin, Phase.atOrigin]

theorem atOrigin_deepen : (deepen limit s).atOrigin = deepen limit s.atOrigin := by
  rw [deepen, deepen, depth_atOrigin]
  split <;> rfl

theorem atOrigin_openBracket (bracket : Bracket) (phase : Phase) :
    (openBracket limit s bracket phase).atOrigin =
      openBracket limit s.atOrigin bracket.atOrigin phase.atOrigin := by
  rw [openBracket, atOrigin_deepen]
  rfl

theorem atOrigin_readOperand (t : Token) :
    (readOperand limit s t).atOrigin = readOperand limit s.atOrigin t.atOrigin := by
  rw [readOperand, readOperand, t.kind_atOrigin, t.payload_atOrigin, floor_atOrigin]
  split
  · exact atOrigin_deepen ..
  · split
    case h_6 | h_8 | h_9 => rfl
    case h_7 => exact atOrigin_openBracket ..
    -- The rest are literals.
    all_goals simp [Move.atOrigin, atOrigin_finishOperand]

theorem atOrigin_refuseUnclosed (t : Token) :
    (refuseUnclosed t).atOrigin = refuseUnclosed t.atOrigin := by
  rw [refuseUnclosed, refuseUnclosed, t.kind_atOrigin]
  split <;> rfl

theorem atOrigin_afterStatement (statement : Tree) (t : Token) :
    (s.afterStatement statement t).atOrigin =
      s.atOrigin.afterStatement statement.atOrigin t.atOrigin := by
  have hprogram : s.atOrigin.isProgram = s.isProgram := rfl
  rw [afterStatement, afterStatement, t.kind_atOrigin, hprogram]
  split
  · rfl
  · split
    · rfl
    · split <;> rfl

theorem atOrigin_statementOf (value : Tree) :
    (s.statementOf value).atOrigin = s.atOrigin.statementOf value.atOrigin := by
  simp only [statementOf, State.atOrigin]
  cases s.target with
  | none => rfl
  | some target => simp

theorem atOrigin_afterExpression (value : Tree) (t : Token) :
    (s.afterExpression value t).atOrigin =
      s.atOrigin.afterExpression value.atOrigin t.atOrigin := by
  have htarget : s.atOrigin.target.isNone = s.target.isNone := by simp [State.atOrigin]
  rw [afterExpression, afterExpression, t.kind_atOrigin, goal_atOrigin, htarget,
    Tree.label?_atOrigin]
  split
  · rfl
  · split
    · split <;> rfl
    · rw [atOrigin_afterStatement, atOrigin_statementOf]

theorem atOrigin_closeBracket (saved : Pending) (outer : List (Pending × Bracket))
    (operand : Tree) :
    (s.closeBracket saved outer operand).atOrigin =
      s.atOrigin.closeBracket saved.atOrigin
        (outer.map (Prod.map Pending.atOrigin Bracket.atOrigin)) operand.atOrigin := by
  rw [closeBracket, Move.atOrigin, atOrigin_finishOperand]
  rfl

theorem atOrigin_afterOperand (operand : Tree) (t : Token) :
    (s.afterOperand operand t).atOrigin =
      s.atOrigin.afterOperand operand.atOrigin t.atOrigin := by
  simp only [afterOperand, t.kind_atOrigin, operations_atOrigin, floor_atOrigin, settle_atOrigin,
    Prod.map_snd]
  split
  · split <;> rfl
  · rw [outer_atOrigin]
    cases s.outer with
    | nil => exact atOrigin_afterExpression ..
    | cons frame outer =>
        rcases frame with ⟨saved, _ | ⟨name, arguments⟩⟩
        · simp only [List.map_cons, Prod.map, Bracket.atOrigin]
          split
          · exact atOrigin_closeBracket ..
          · exact atOrigin_refuseUnclosed _
        · simp only [List.map_cons, Prod.map, Bracket.atOrigin]
          split
          · rfl
          · split
            · simp [atOrigin_closeBracket]
            · exact atOrigin_refuseUnclosed _

theorem atOrigin_step (t : Token) :
    (s.step limit t).atOrigin = s.atOrigin.step limit t.atOrigin := by
  rw [step, step, t.kind_atOrigin, phase_atOrigin, outer_atOrigin]
  cases s.phase with
  | start =>
      simp only [Phase.atOrigin]
      split
      · rfl
      · exact atOrigin_readOperand ..
  | operand => exact atOrigin_readOperand ..
  | argument =>
      cases s.outer with
      | nil => exact atOrigin_readOperand ..
      | cons frame outer =>
          rcases frame with ⟨saved, _ | ⟨name, arguments⟩⟩
          · exact atOrigin_readOperand ..
          · simp only [Phase.atOrigin, List.map_cons, Prod.map, Bracket.atOrigin]
            split
            · simp [atOrigin_closeBracket]
            · exact atOrigin_readOperand ..
  | named name =>
      simp only [Phase.atOrigin]
      split
      · exact atOrigin_openBracket ..
      · rw [atOrigin_afterOperand, atOrigin_finishOperand, atOrigin_applySigns,
          Tree.atOrigin_identifier]
        rfl
  | complete operand => exact atOrigin_afterOperand ..

theorem outcomeAtOrigin_finishWith (operand : Tree) :
    outcomeAtOrigin (s.finishWith operand) = s.atOrigin.finishWith operand.atOrigin := by
  simp only [finishWith, outer_atOrigin, operations_atOrigin, statements_atOrigin, settle_atOrigin,
    Prod.map_snd, ← atOrigin_statementOf, List.isEmpty_map]
  split
  · rfl
  · split <;> simp [outcomeAtOrigin]

theorem outcomeAtOrigin_finish : outcomeAtOrigin s.finish = s.atOrigin.finish := by
  rw [finish, finish, phase_atOrigin, statements_atOrigin]
  cases s.phase with
  | start =>
      simp only [Phase.atOrigin, List.isEmpty_map]
      split <;> simp [outcomeAtOrigin, Fault.atOrigin]
  | operand => rfl
  | argument => rfl
  | named name =>
      simp only [outcomeAtOrigin_finishWith, atOrigin_applySigns, Tree.atOrigin_identifier]
      rfl
  | complete operand => exact outcomeAtOrigin_finishWith ..

/-- What a run comes to, moved to the origin, is what it comes to with all tokens there. -/
theorem outcomeAtOrigin_run (tokens : List Token) :
    outcomeAtOrigin (s.run limit tokens).1 =
      (s.atOrigin.run limit (tokens.map Token.atOrigin)).1 := by
  induction tokens generalizing s with
  | nil => exact s.outcomeAtOrigin_finish
  | cons t rest ih =>
      rw [List.map_cons, run, run, ← atOrigin_step]
      cases s.step limit t with
      | shift next => exact ih next
      | accept tree => rfl
      | reject fault taken => cases taken <;> rfl

/-- Tokens with the same kinds and payloads have one outcome, the places aside. -/
theorem outcomeAtOrigin_of_content (goal : Goal) {ts us : List Token}
    (h : ts.map Token.content = us.map Token.content) :
    outcomeAtOrigin ((initial goal).run limit ts).1 =
      outcomeAtOrigin ((initial goal).run limit us).1 := by
  rw [outcomeAtOrigin_run, outcomeAtOrigin_run, Token.map_atOrigin_of_content h]

end State

end Parser

/-- The class of error that a cause belongs to. -/
def Cause.className : Cause → String
  | .general _ => "GlassError"
  | .unsupported _ => "Unsupported"
  | .internal _ => "UnknownError"
  | .unknownToken _ => "UnknownToken"
  | .unclosedString => "UnclosedString"
  | .unknownEscape _ => "UnknownEscapeSequence"
  | .unexpectedToken .. => "UnexpectedToken"
  | .unexpectedEnd _ => "UnexpectedEndOfInput"
  | .invalidOperation .. => "InvalidOperation"
  | .invalidUnaryOperation .. => "InvalidUnaryOperation"
  | .undefinedName _ => "UndefinedName"
  | .unreadableFile _ => "FileNotFound"

/-- Two outcomes of parsing are the same, the places aside. -/
inductive SameOutcome : Except Failure Tree → Except Failure Tree → Prop where
  | tree {t u : Tree} : t.unplaced = u.unplaced → SameOutcome (.ok t) (.ok u)
  | diagnostic {d e : Diagnostic} : d.cause.className = e.cause.className →
      SameOutcome (.error (.diagnostic d)) (.error (.diagnostic e))
  | tooDeep : SameOutcome (.error .tooDeep) (.error .tooDeep)

theorem Parser.className_flawDiagnostic (p q : Parser) {t u : Token} (h : t.kind = u.kind) :
    (p.flawDiagnostic t).cause.className = (q.flawDiagnostic u).cause.className := by
  rw [flawDiagnostic, flawDiagnostic, h]
  split <;> rfl

/-- Faults that differ in places only are reported by failures of one class. -/
theorem Parser.sameOutcome_failure (p q : Parser) {fault fault' : Fault}
    (h : fault.atOrigin = fault'.atOrigin) :
    SameOutcome (.error (p.failure fault)) (.error (q.failure fault')) := by
  cases fault <;> cases fault' <;> injection h
  case unexpected.unexpected => exact .diagnostic rfl
  case flawed.flawed hfound =>
      injection hfound with hkind
      exact .diagnostic (className_flawDiagnostic p q hkind)
  case unsupported.unsupported => exact .diagnostic rfl
  case endOfInput.endOfInput => exact .diagnostic rfl
  case tooDeep.tooDeep => exact .tooDeep

/-- The kinds and payloads of its tokens decide how a source is parsed. -/
theorem sameOutcome_of_content {source other : String}
    (h : (tokenize source).map Token.content = (tokenize other).map Token.content)
    (filename : Option String) (limits : Limits) :
    SameOutcome (parseProgram source filename limits) (parseProgram other filename limits) := by
  have hsame := Parser.State.outcomeAtOrigin_of_content limits.nesting .program h
  rw [parseProgram_of_run rfl, parseProgram_of_run rfl]
  generalize ((Parser.State.initial .program).run limits.nesting (tokenize source)).1 = result
    at hsame
  generalize ((Parser.State.initial .program).run limits.nesting (tokenize other)).1 = result'
    at hsame
  cases result <;> cases result' <;> injection hsame
  case error.error hfault => exact Parser.sameOutcome_failure _ _ hfault
  case ok.ok htree => exact .tree (Tree.unplaced_eq_of_atOrigin_eq htree)

end Glass
