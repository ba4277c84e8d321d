import Glass.Proofs.StrictEvaluation

/-!
Kinds decide outcomes. Whether an operator takes its operands, the kind of what it makes of them and
the words in which it refuses them all depend on the operands' kinds alone, but for one case: a text
may grow too long when it is repeated. So a program that is evaluated twice, with values of the same
kinds under the same names, comes both times to a value of the same kind or to the same failure.
-/

namespace Glass

/-- The kind that an operator makes of operands of the given kinds, unless it refuses them. -/
def BinaryOp.resultKind? (op : BinaryOp) (left right : ValueKind) : Option ValueKind :=
  match op with
  | .add =>
      match left, right with
      | .number, .number => some .number
      | .string, .string | .string, .number | .number, .string => some .string
      | .list, .list => some .list
      | .dictionary, .dictionary => some .dictionary
      | _, _ => none
  | .multiply =>
      match left, right with
      | .number, .number => some .number
      | .string, .number | .number, .string => some .string
      | _, _ => none
  | .subtract | .divide | .remainder | .power =>
      if left = .number ∧ right = .number then some .number else none
  | .less | .greater | .lessEqual | .greaterEqual =>
      if left = .number ∧ right = .number then some .boolean else none
  | .both | .either => if left = .boolean ∧ right = .boolean then some .boolean else none
  | .equal | .notEqual => some .boolean

/-- What an operator comes to, told by the kinds of its operands. -/
def BinaryOp.outcome (op : BinaryOp) (left right : ValueKind) : Except Cause ValueKind :=
  match op.resultKind? left right with
  | some kind => .ok kind
  | none => .error (.invalidOperation op.spelling left.name right.name)

/-- What an operator comes to, told by the kind of its operand. -/
def UnaryOp.outcome : UnaryOp → ValueKind → Except Cause ValueKind
  | .plus, kind => .ok kind
  | .minus, .number => .ok .number
  | .negation, .boolean => .ok .boolean
  | op, kind => .error (.invalidUnaryOperation op.spelling kind.name)

/-- A string and a number are refused by `*`, which repeats the string where it can. -/
inductive Cause.RefusesRepetition : Cause → Prop where
  | counted : RefusesRepetition (.invalidOperation "*" "string" "number")
  | counting : RefusesRepetition (.invalidOperation "*" "number" "string")

theorem Cause.RefusesRepetition.operation_eq {operation left right : String}
    (h : (invalidOperation operation left right).RefusesRepetition) : operation = "*" := by
  cases h with
  | counted => rfl
  | counting => rfl

namespace Value

theorem applyUnary_kind (op : UnaryOp) (v : Value) :
    (v.applyUnary op).map kind = op.outcome v.kind := by
  cases op <;> cases v <;> rfl

theorem onNumbers_kind {op : BinaryOp} {f : Float → Float → Value} {result : ValueKind}
    (hop : ∀ left right, op.resultKind? left right =
      if left = .number ∧ right = .number then some result else none)
    (hf : ∀ a b, (f a b).kind = result) (left right : Value) :
    (onNumbers op f left right).map kind = op.outcome left.kind right.kind := by
  rw [BinaryOp.outcome, hop]
  cases left <;> cases right
  case number.number a b => exact congrArg Except.ok (hf a b)
  all_goals rfl

theorem onBooleans_kind {op : BinaryOp} {f : Bool → Bool → Bool}
    (hop : ∀ left right, op.resultKind? left right =
      if left = .boolean ∧ right = .boolean then some .boolean else none) (left right : Value) :
    (onBooleans op f left right).map kind = op.outcome left.kind right.kind := by
  rw [BinaryOp.outcome, hop]
  cases left <;> cases right <;> rfl

theorem multiply_kind (left right : Value) :
    (left.multiply right).map kind = BinaryOp.multiply.outcome left.kind right.kind ∨
      ∃ cause, left.multiply right = .error cause ∧ cause.RefusesRepetition := by
  cases left <;> cases right
  case string.number text count =>
    cases hrepeat : repeatText? text count with
    | some repeated => exact Or.inl (by simp [multiply, hrepeat]; rfl)
    | none => exact Or.inr ⟨_, by simp [multiply, hrepeat], .counted⟩
  case number.string count text =>
    cases hrepeat : repeatText? text count with
    | some repeated => exact Or.inl (by simp [multiply, hrepeat]; rfl)
    | none => exact Or.inr ⟨_, by simp [multiply, hrepeat], .counting⟩
  all_goals exact Or.inl rfl

/-- The kinds of the operands tell the kind of the result or the way of the refusal, unless a text
that is repeated would grow too long. -/
theorem applyBinary_kind (op : BinaryOp) (left right : Value) :
    (left.applyBinary op right).map kind = op.outcome left.kind right.kind ∨
      ∃ cause, left.applyBinary op right = .error cause ∧ cause.RefusesRepetition := by
  cases op with
  | add =>
      apply Or.inl
      cases left <;> cases right <;> rfl
  | multiply => exact multiply_kind left right
  | equal => exact Or.inl rfl
  | notEqual => exact Or.inl rfl
  | both | either =>
      apply Or.inl
      apply onBooleans_kind
      intros
      rfl
  | _ =>
      apply Or.inl
      apply onNumbers_kind <;> intros <;> rfl

end Value

/-- The failure is the refusal to repeat a text. -/
def Failure.RefusesRepetition : Failure → Prop
  | .diagnostic d => d.cause.RefusesRepetition
  | _ => False

/-- How two evaluations of one tree compare. They come to results that `Same` relates, or to the
same diagnostic, or are both too deep, which the tree must then be; or one of them refuses to repeat
a text, and the other may do anything. -/
inductive Alike {α : Type} (Same : α → α → Prop) (deep : Prop) :
    (first second : Except Failure α) → Prop where
  | values {a b : α} : Same a b → Alike Same deep (.ok a) (.ok b)
  | diagnostics (d : Diagnostic) : Alike Same deep (.error (.diagnostic d)) (.error (.diagnostic d))
  | tooDeep : deep → Alike Same deep (.error .tooDeep) (.error .tooDeep)
  | firstRefuses {failure : Failure} {second : Except Failure α} :
      failure.RefusesRepetition → Alike Same deep (.error failure) second
  | secondRefuses {failure : Failure} {first : Except Failure α} :
      failure.RefusesRepetition → Alike Same deep first (.error failure)

/-- The two scopes have values of the same kinds under the same names, and report places alike. -/
structure Scope.SameKinds (first second : Scope) : Prop where
  source_eq : first.source = second.source
  filename_eq : first.filename = second.filename
  kind_eq (name : String) : (first.find? name).map Value.kind = (second.find? name).map Value.kind

/-- Both are values, and of the same kind. -/
inductive Operand.SameKind : Operand → Operand → Prop where
  | values {v w : Value} : v.kind = w.kind → SameKind v w

namespace Alike

section
variable {α β : Type} {Same : α → α → Prop} {deep : Prop} {first second : Except Failure α}

theorem mono {deep' : Prop} (h : Alike Same deep first second) (himp : deep → deep') :
    Alike Same deep' first second := by
  cases h with
  | values hsame => exact .values hsame
  | diagnostics d => exact .diagnostics d
  | tooDeep hdeep => exact .tooDeep (himp hdeep)
  | firstRefuses hrefuses => exact .firstRefuses hrefuses
  | secondRefuses hrefuses => exact .secondRefuses hrefuses

/-- What comes next is alike if it is so for results that are the same. -/
theorem bind {Same' : β → β → Prop} {next next' : α → Except Failure β}
    (h : Alike Same deep first second)
    (hnext : ∀ a b, Same a b → Alike Same' deep (next a) (next' b)) :
    Alike Same' deep (first >>= next) (second >>= next') := by
  cases h with
  | values hsame => exact hnext _ _ hsame
  | diagnostics d => exact .diagnostics d
  | tooDeep hdeep => exact .tooDeep hdeep
  | firstRefuses hrefuses => exact .firstRefuses hrefuses
  | secondRefuses hrefuses => exact .secondRefuses hrefuses

theorem discarded (h : Alike Same deep first second) :
    Alike (fun _ _ => True) deep (discard first) (discard second) := by
  cases h with
  | values => exact .values trivial
  | diagnostics d => exact .diagnostics d
  | tooDeep hdeep => exact .tooDeep hdeep
  | firstRefuses hrefuses => exact .firstRefuses hrefuses
  | secondRefuses hrefuses => exact .secondRefuses hrefuses

end

theorem forM {deep : Prop} {eval eval' : Tree → Except Failure Operand} {trees : List Tree}
    (h : ∀ t ∈ trees, Alike Operand.SameKind deep (eval t) (eval' t)) :
    Alike (fun _ _ => True) deep (trees.forM fun t => discard (eval t))
      (trees.forM fun t => discard (eval' t)) := by
  induction trees with
  | nil => exact .values trivial
  | cons t trees ih =>
      obtain ⟨ht, htrees⟩ := List.forall_mem_cons.mp h
      exact ht.discarded.bind fun _ _ _ => ih htrees

theorem locate_refuses {scope : Scope} {t : Tree} {span : Option Span} {failure : Failure}
    (hspan : t.span = .ok span) (h : failure.RefusesRepetition) :
    (Failure.locate scope t failure).RefusesRepetition := by
  cases failure with
  | diagnostic d =>
      rw [Failure.locate, hspan]
      simp only [Diagnostic.attach]
      split
      · exact h
      · exact h
  | _ => exact h.elim

/-- Failures that are the same are placed alike. -/
theorem locate {Same : Operand → Operand → Prop} {deep : Prop}
    {first second : Except Failure Operand} {scope scope' : Scope} {t : Tree} {span : Option Span}
    (h : Alike Same deep first second) (hscopes : scope.SameKinds scope') (hspan : t.span = .ok span) :
    Alike Same deep (first.mapError (.locate scope t)) (second.mapError (.locate scope' t)) := by
  cases h with
  | values hsame => exact .values hsame
  | diagnostics d =>
      change Alike Same deep (.error (Failure.locate scope t (.diagnostic d)))
        (.error (Failure.locate scope' t (.diagnostic d)))
      simp only [Failure.locate, hspan, hscopes.source_eq, hscopes.filename_eq]
      exact .diagnostics _
  | tooDeep hdeep => exact .tooDeep hdeep
  | firstRefuses hrefuses => exact .firstRefuses (locate_refuses hspan hrefuses)
  | secondRefuses hrefuses => exact .secondRefuses (locate_refuses hspan hrefuses)

/-- Operations with outcomes of the same kind are alike. -/
theorem ofCauses {deep : Prop} {first second : Except Cause Value}
    (h : first.map Value.kind = second.map Value.kind) :
    Alike Operand.SameKind deep (Operand.ofResult first) (Operand.ofResult second) := by
  cases first with
  | ok v =>
      cases second with
      | ok w => exact .values (.values (Except.ok.inj h))
      | error cause => cases h
  | error cause =>
      cases second with
      | ok w => cases h
      | error cause' =>
          obtain rfl := Except.error.inj h
          exact .diagnostics _

theorem applyUnary {deep : Prop} {a b : Operand} (op : UnaryOp) (h : a.SameKind b) :
    Alike Operand.SameKind deep (a.applyUnary op) (b.applyUnary op) := by
  cases h with
  | values hkind =>
      apply ofCauses
      rw [Value.applyUnary_kind, Value.applyUnary_kind, hkind]

theorem applyBinary {deep : Prop} {a a' b b' : Operand} (op : BinaryOp)
    (ha : a.SameKind a') (hb : b.SameKind b') :
    Alike Operand.SameKind deep (a.applyBinary op b) (a'.applyBinary op b') := by
  obtain @⟨left, left', hleft⟩ := ha
  obtain @⟨right, right', hright⟩ := hb
  change Alike _ deep (Operand.ofResult (left.applyBinary op right))
    (Operand.ofResult (left'.applyBinary op right'))
  rcases Value.applyBinary_kind op left right with hkind | ⟨cause, hcause, hrefuses⟩
  · rcases Value.applyBinary_kind op left' right' with hkind' | ⟨cause, hcause, hrefuses⟩
    · apply ofCauses
      rw [hkind, hkind', hleft, hright]
    · rw [hcause]
      exact .secondRefuses hrefuses
  · rw [hcause]
    exact .firstRefuses hrefuses

end Alike

section
variable {scope scope' : Scope}

/-- Evaluating a node takes one of the room, and without room it is too deep. -/
theorem alike_node (hscopes : scope.SameKinds scope') {label : Label} {children : List Tree}
    {place : Option Place} {length room : Nat}
    (hplaced : (Tree.node label children place).Placed length)
    (h : ∀ left, room = left + 1 →
      Alike Operand.SameKind (room < (Tree.node label children place).height)
        (evalNode scope (Tree.eval scope left) (.node label children place))
        (evalNode scope' (Tree.eval scope' left) (.node label children place))) :
    Alike Operand.SameKind (room < (Tree.node label children place).height)
      ((Tree.node label children place).eval scope room)
      ((Tree.node label children place).eval scope' room) := by
  cases room with
  | zero =>
      apply Alike.tooDeep
      rw [Tree.height]
      exact Nat.succ_pos _
  | succ left =>
      obtain ⟨span, hspan⟩ := hplaced.span_eq
      exact (h left rfl).locate hscopes hspan

theorem alike_name (hscopes : scope.SameKinds scope') {deep : Prop} (name : Token)
    (place : Option Place) (eval eval' : Tree → Except Failure Operand) :
    Alike Operand.SameKind deep (evalNode scope eval (.node .identifier [.ofToken name] place))
      (evalNode scope' eval' (.node .identifier [.ofToken name] place)) := by
  have hkind := hscopes.kind_eq name.payload.toText
  rw [Tree.evalNode_name, Tree.evalNode_name]
  cases hfind : scope.find? name.payload.toText with
  | none =>
      cases hfind' : scope'.find? name.payload.toText with
      | none => exact .diagnostics _
      | some w =>
          rw [hfind, hfind'] at hkind
          cases hkind
  | some v =>
      cases hfind' : scope'.find? name.payload.toText with
      | none =>
          rw [hfind, hfind'] at hkind
          cases hkind
      | some w =>
          rw [hfind, hfind'] at hkind
          exact .values (.values (Option.some.inj hkind))

/-- A sound tree is evaluated alike in scopes of the same kinds. -/
theorem alike_of_sound (hscopes : scope.SameKinds scope') {length : Nat} {t : Tree}
    (h : t.Sound length) (room : Nat) :
    Alike Operand.SameKind (room < t.height) (t.eval scope room) (t.eval scope' room) := by
  induction h generalizing room with
  | number hplaced => exact alike_node hscopes hplaced fun _ _ => .values (.values rfl)
  | string hplaced => exact alike_node hscopes hplaced fun _ _ => .values (.values rfl)
  | boolean hplaced => exact alike_node hscopes hplaced fun _ _ => .values (.values rfl)
  | void hplaced => exact alike_node hscopes hplaced fun _ _ => .values (.values rfl)
  | @identifier name place hplaced =>
      exact alike_node hscopes hplaced fun _ _ => alike_name hscopes name place _ _
  | @unaryOp op operand unary place hplaced hop _ ih =>
      apply alike_node hscopes hplaced
      rintro left rfl
      simp only [evalNode, hop]
      refine Alike.bind ((ih left).mono fun hdeep => ?_) fun v w hsame => .applyUnary unary hsame
      exact Nat.lt_of_le_of_lt hdeep (height_lt_node (by simp))
  | @binaryOp op left right binary place hplaced hop _ _ ihl ihr =>
      apply alike_node hscopes hplaced
      rintro less rfl
      simp only [evalNode, hop]
      refine Alike.bind ((ihl less).mono fun hdeep => ?_) fun v w hleft =>
        Alike.bind ((ihr less).mono fun hdeep => ?_) fun v' w' hright =>
          .applyBinary binary hleft hright
      · exact Nat.lt_of_le_of_lt hdeep (height_lt_node (by simp))
      · exact Nat.lt_of_le_of_lt hdeep (height_lt_node (by simp))
  | assignment hplaced => exact alike_node hscopes hplaced fun _ _ => .diagnostics _
  | functionCall hplaced => exact alike_node hscopes hplaced fun _ _ => .diagnostics _
  | @block children place hplaced _ ih =>
      apply alike_node hscopes hplaced
      rintro left rfl
      simp only [evalNode]
      refine Alike.bind (Alike.forM fun child member => ?_) fun _ _ _ => .values (.values rfl)
      exact (ih child member left).mono fun hdeep =>
        Nat.lt_of_le_of_lt hdeep (height_lt_node member)

end

/-- Evaluate a program's tree twice, with values of the same kinds under the same names. Unless one
of the two evaluations refuses to repeat a text, both come to values of kinds of the same name, or
both to the same diagnostic, or the tree is too deep for both. -/
theorem kinds_decide_outcome (source : String) (parsedAs text filename : Option String)
    (limits : Limits) (t : Tree) (hparse : parseProgram source parsedAs limits = .ok t)
    (first second : Entries Value)
    (hkinds : ∀ name, (Entries.get? first name).map Value.kind =
      (Entries.get? second name).map Value.kind) :
    let result (bindings : Entries Value) := evaluate t text filename bindings limits
    (∀ d, result first = .error (.diagnostic d) → ¬ d.cause.RefusesRepetition) →
    (∀ d, result second = .error (.diagnostic d) → ¬ d.cause.RefusesRepetition) →
    (∃ v w : Value,
      result first = .ok v ∧ result second = .ok w ∧ v.kind.name = w.kind.name) ∨
    (∃ d, result first = .error (.diagnostic d) ∧ result second = .error (.diagnostic d)) ∨
    (limits.evaluation < t.height ∧ result first = .error .tooDeep ∧
      result second = .error .tooDeep) := by
  intro result hfirst hsecond
  let scope (bindings : Entries Value) : Scope := { layers := [bindings], source := text, filename }
  have hscopes : (scope first).SameKinds (scope second) := by
    refine ⟨rfl, rfl, fun name => ?_⟩
    simpa [scope, Scope.find?] using hkinds name
  have hsound := (parseProgram_eq_ok hparse).1
  have halike : Alike Operand.SameKind (limits.evaluation < t.height) (result first)
      (result second) := alike_of_sound hscopes hsound limits.evaluation
  generalize result first = firstResult at hfirst halike
  generalize result second = secondResult at hsecond halike
  cases halike with
  | values hsame =>
      cases hsame with
      | values hkind => exact Or.inl ⟨_, _, rfl, rfl, congrArg ValueKind.name hkind⟩
  | diagnostics d => exact Or.inr (Or.inl ⟨d, rfl, rfl⟩)
  | tooDeep hdeep => exact Or.inr (Or.inr ⟨hdeep, rfl, rfl⟩)
  | @firstRefuses failure _ hrefuses =>
      cases failure with
      | diagnostic d => exact absurd hrefuses (hfirst d rfl)
      | _ => exact hrefuses.elim
  | @secondRefuses failure _ hrefuses =>
      cases failure with
      | diagnostic d => exact absurd hrefuses (hsecond d rfl)
      | _ => exact hrefuses.elim

/-- Two lists in a row are a list, whatever is in them, and nothing can be taken from it. -/
theorem kinds_decide_outcome_lists :
    let first : Entries Value := [("x", .list [.void, .string "a"]), ("y", .boolean true)]
    let second : Entries Value := [("y", .boolean false), ("x", .list [])]
    let result (t : Tree) (bindings : Entries Value) :=
      evaluate t (some "x + x - y") none bindings {}
    let refusal : Failure := .diagnostic ⟨.invalidOperation "-" "list" "boolean",
      some "x + x - y", some { start := 0, stop := 9 }, none⟩
    ∃ t, parseProgram "x + x - y" none {} = .ok t ∧ result t first = .error refusal ∧
      result t second = .error refusal := by
  intro first second result refusal
  have hkinds (name : String) : (Entries.get? first name).map Value.kind =
      (Entries.get? second name).map Value.kind := by
    by_cases hx : name = "x"
    · subst hx
      rfl
    by_cases hy : name = "y"
    · subst hy
      rfl
    · simp [first, second, Entries.get?, List.lookup_cons, beq_false_of_ne, hx, hy]
  obtain ⟨t, hparse⟩ : ∃ t, parseProgram "x + x - y" none {} = .ok t := ⟨_, rfl⟩
  have hfirst : (parseProgram "x + x - y" none {} >>= (result · first)) = .error refusal := rfl
  have hsecond : (parseProgram "x + x - y" none {} >>= (result · second)) = .error refusal := rfl
  rw [hparse] at hfirst hsecond
  change result t first = .error refusal at hfirst
  change result t second = .error refusal at hsecond
  have hunlike (d : Diagnostic) (hd : refusal = .diagnostic d) : ¬ d.cause.RefusesRepetition := by
    obtain rfl := Failure.diagnostic.inj hd
    intro hrefuses
    exact absurd hrefuses.operation_eq (by decide)
  have houtcome := kinds_decide_outcome "x + x - y" none (some "x + x - y") none {} t hparse first
    second hkinds (fun d hd => hunlike d (Except.error.inj (hfirst.symm.trans hd)))
    (fun d hd => hunlike d (Except.error.inj (hsecond.symm.trans hd)))
  rcases houtcome with ⟨v, _, hv, _⟩ | ⟨d, hd, hd'⟩ | ⟨_, hdeep, _⟩
  · cases hfirst.symm.trans hv
  · rw [Except.error.inj (hfirst.symm.trans hd)]
    exact ⟨t, hparse, hd, hd'⟩
  · exact Failure.noConfusion (Except.error.inj (hfirst.symm.trans hdeep))

end Glass
