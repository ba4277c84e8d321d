import Glass.Proofs.StrictEvaluation

/-!
Where a diagnostic of a tree points. What fails first in a node is the node itself or one of the trees
it evaluates, and going on from there leads down to the tree that failed of itself. The diagnostic
takes the deepest span on this path and keeps it on the way up; nodes and tokens without a place are
passed over, and so is every place if there is no source. Nothing is asked of the trees: they need not
be those of a text, and a place whose ends form no span, met on the path, leaves no diagnostic.
-/

namespace Glass.Tree

/-- The trees that evaluation of a node goes through in turn, as long as they have values. -/
def operands : Tree → List Tree
  | .node .unaryOp [op, operand] _ => if op.unaryOp?.isSome then [operand] else []
  | .node .binaryOp [op, left, right] _ => if op.binaryOp?.isSome then [left, right] else []
  | .node .block statements _ => statements
  | _ => []

/-- The span of the deepest tree on a path that has one, where the path leads down from its first. -/
def innermostSpan? (path : List Tree) : Option Span := (path.filterMap span?).getLast?

theorem innermostSpan?_cons (t : Tree) (path : List Tree) :
    innermostSpan? (t :: path) = (innermostSpan? path).or t.span? := by
  rw [innermostSpan?, innermostSpan?, List.filterMap_cons]
  cases t.span? with
  | none => exact Option.or_none.symm
  | some span =>
      simp only [List.getLast?_cons]
      cases (path.filterMap span?).getLast? <;> rfl

end Glass.Tree

namespace Glass

/-- The path leads from a tree that fails down to the one whose own evaluation fails: each time to
the first operand that has no value, until all operands have one. -/
inductive FailurePath (value : Tree → Except Failure Operand) : Tree → List Tree → Prop where
  | own {t : Tree} {failure : Failure} :
      value t = .error failure → (∀ c ∈ t.operands, ∃ v, value c = .ok v) →
      FailurePath value t [t]
  | operand {t child : Tree} {failure : Failure} {before behind path : List Tree} :
      value t = .error failure → t.operands = before ++ child :: behind →
      (∀ c ∈ before, ∃ v, value c = .ok v) → FailurePath value child path →
      FailurePath value t (t :: path)

namespace FailurePath

variable {value : Tree → Except Failure Operand} {t : Tree} {path : List Tree}

theorem fails (h : FailurePath value t path) : ∃ failure, value t = .error failure := by
  cases h with
  | own hfails => exact ⟨_, hfails⟩
  | operand hfails => exact ⟨_, hfails⟩

/-- There is one first tree that fails. -/
theorem first_unique {before before' behind behind' : List Tree} {child child' : Tree}
    (heq : before ++ child :: behind = before' ++ child' :: behind')
    (hbefore : ∀ c ∈ before, ∃ v, value c = .ok v) (hchild : ∃ failure, value child = .error failure)
    (hbefore' : ∀ c ∈ before', ∃ v, value c = .ok v)
    (hchild' : ∃ failure, value child' = .error failure) : child = child' := by
  have hne {c : Tree} (hvalue : ∃ v, value c = .ok v) (hfails : ∃ failure, value c = .error failure) :
      False := by
    obtain ⟨v, hv⟩ := hvalue
    obtain ⟨failure, hfailure⟩ := hfails
    exact nomatch hv.symm.trans hfailure
  induction before generalizing before' with
  | nil =>
      cases before' with
      | nil => exact (List.cons.inj heq).1
      | cons c before' =>
          obtain ⟨rfl, _⟩ := List.cons.inj heq
          exact (hne (hbefore' _ List.mem_cons_self) hchild).elim
  | cons b before ih =>
      obtain ⟨hb, hbefore⟩ := List.forall_mem_cons.mp hbefore
      cases before' with
      | nil =>
          obtain ⟨rfl, _⟩ := List.cons.inj heq
          exact (hne hb hchild').elim
      | cons c before' =>
          exact ih (List.cons.inj heq).2 hbefore (List.forall_mem_cons.mp hbefore').2

theorem not_all_values {child : Tree} {before behind : List Tree}
    (hsplit : t.operands = before ++ child :: behind) (hchild : FailurePath value child path)
    (hoperands : ∀ c ∈ t.operands, ∃ v, value c = .ok v) : False := by
  have member : child ∈ t.operands := by simp [hsplit]
  obtain ⟨v, hv⟩ := hoperands child member
  obtain ⟨failure, hfailure⟩ := hchild.fails
  exact nomatch hv.symm.trans hfailure

theorem unique (h : FailurePath value t path) {other : List Tree}
    (hother : FailurePath value t other) : other = path := by
  induction h generalizing other with
  | own _ hoperands =>
      cases hother with
      | own => rfl
      | operand _ hsplit _ hchild => exact (not_all_values hsplit hchild hoperands).elim
  | operand _ hsplit hbefore hchild ih =>
      cases hother with
      | own _ hoperands => exact (not_all_values hsplit hchild hoperands).elim
      | operand _ hsplit' hbefore' hchild' =>
          obtain rfl := first_unique (hsplit.symm.trans hsplit') hbefore hchild.fails hbefore'
            hchild'.fails
          rw [ih hchild']

end FailurePath

/-- A diagnostic is that of the first tree that fails, or arises without a place once all the trees
have values. -/
inductive Arises (eval : Tree → Except Failure Operand) : List Tree → Diagnostic → Prop where
  | own {trees : List Tree} {cause : Cause} :
      (∀ c ∈ trees, ∃ v, eval c = .ok v) → Arises eval trees { cause }
  | operand {trees before behind : List Tree} {child : Tree} {d : Diagnostic} :
      trees = before ++ child :: behind → (∀ c ∈ before, ∃ v, eval c = .ok v) →
      eval child = .error (.diagnostic d) → Arises eval trees d

section Step

variable {scope : Scope} {eval : Tree → Except Failure Operand}

/-- A block stops at the first statement that fails. -/
theorem forM_eq_error {failure : Failure} {statements : List Tree}
    (h : (statements.forM fun t => discard (eval t)) = .error failure) :
    ∃ before child behind, statements = before ++ child :: behind ∧
      (∀ c ∈ before, ∃ v, eval c = .ok v) ∧ eval child = .error failure := by
  induction statements with
  | nil => cases h
  | cons t statements ih =>
      cases hvalue : eval t with
      | error first =>
          rw [List.forM, hvalue] at h
          obtain rfl : first = failure := Except.error.inj h
          exact ⟨[], t, statements, rfl, List.forall_mem_nil _, hvalue⟩
      | ok v =>
          rw [List.forM, hvalue] at h
          obtain ⟨before, child, behind, rfl, hbefore, hchild⟩ := ih h
          exact ⟨t :: before, child, behind, rfl, List.forall_mem_cons.mpr ⟨⟨v, hvalue⟩, hbefore⟩,
            hchild⟩

/-- A diagnostic does not come from a part that gives none. -/
theorem bind_eq_diagnostic {α β : Type} {result : Except Failure α} {next : α → Except Failure β}
    {d : Diagnostic} (hnone : ∀ d, result ≠ .error (.diagnostic d))
    (h : (result >>= next) = .error (.diagnostic d)) :
    ∃ a, result = .ok a ∧ next a = .error (.diagnostic d) := by
  cases result with
  | error failure =>
      obtain rfl : failure = .diagnostic d := Except.error.inj h
      exact absurd rfl (hnone d)
  | ok a => exact ⟨a, rfl, h⟩

theorem firstChild_ne_diagnostic (children : List Tree) (d : Diagnostic) :
    firstChild children ≠ .error (.diagnostic d) := by
  cases children <;> nofun

theorem toNumber_ne_diagnostic (t : Tree) (d : Diagnostic) :
    t.toNumber ≠ .error (.diagnostic d) := by
  unfold Tree.toNumber
  split
  case h_3 => split <;> nofun
  case h_4 => split <;> nofun
  all_goals nofun

theorem toName_ne_diagnostic (t : Tree) (d : Diagnostic) : t.toName ≠ .error (.diagnostic d) := by
  cases t <;> nofun

/-- A diagnostic in the result has no place yet. -/
def Fresh (result : Except Failure Operand) : Prop :=
  ∀ d, result = .error (.diagnostic d) → ∃ cause, d = { cause }

theorem Fresh.ok (a : Operand) : Fresh (.ok a) := by
  rintro d ⟨⟩

theorem Fresh.malformed (m : Malformation) : Fresh (.error (.malformed m)) := by
  rintro d ⟨⟩

theorem Fresh.ofCause (cause : Cause) : Fresh (.error (.ofCause cause)) := by
  rintro d ⟨⟩
  exact ⟨cause, rfl⟩

theorem Fresh.ofResult (result : Except Cause Value) : Fresh (Operand.ofResult result) := by
  cases result with
  | ok v => exact .ok v
  | error cause => exact .ofCause cause

theorem Fresh.add (a b : Operand) : Fresh (a.add b) := by
  unfold Operand.add
  split
  · rename_i first second _ _
    cases first.add second with
    | ok held => exact .ok held.toOperand
    | error m => exact .malformed m
  · exact .ofCause _

theorem Fresh.multiply (a b : Operand) : Fresh (a.multiply b) := by
  unfold Operand.multiply
  split
  · split
    · exact .ok _
    · exact .ofCause _
    · exact .malformed _
  · split
    · exact .ok _
    · exact .ofCause _
    · exact .malformed _
  · exact .ofCause _

theorem Fresh.applyUnary (op : UnaryOp) (a : Operand) : Fresh (a.applyUnary op) := by
  unfold Operand.applyUnary
  split
  · exact .ofResult _
  · split
    · exact .ok _
    · exact .ofCause _

theorem Fresh.applyBinary (op : BinaryOp) (a b : Operand) : Fresh (a.applyBinary op b) := by
  unfold Operand.applyBinary
  split
  · exact .ofResult _
  · split
    · exact .add a b
    · exact .multiply a b
    · exact .ok _
    · exact .ok _
    · exact .ofCause _

theorem evalNode_unary_eq_diagnostic {op operand : Tree} {place : Option Place} {d : Diagnostic}
    (h : evalNode scope eval (.node .unaryOp [op, operand] place) = .error (.diagnostic d)) :
    Arises eval (Tree.node .unaryOp [op, operand] place).operands d := by
  rw [evalNode] at h
  rw [Tree.operands]
  cases hop : op.unaryOp? with
  | none =>
      rw [hop] at h
      cases h
      exact .own (List.forall_mem_nil _)
  | some unary =>
      rw [hop] at h
      cases hvalue : eval operand with
      | error failure =>
          rw [hvalue] at h
          cases h
          exact .operand (List.nil_append [operand]).symm (List.forall_mem_nil _) hvalue
      | ok v =>
          rw [hvalue] at h
          obtain ⟨cause, rfl⟩ := Fresh.applyUnary unary v d h
          exact .own (List.forall_mem_singleton.mpr ⟨v, hvalue⟩)

theorem evalNode_binary_eq_diagnostic {op left right : Tree} {place : Option Place}
    {d : Diagnostic}
    (h : evalNode scope eval (.node .binaryOp [op, left, right] place) = .error (.diagnostic d)) :
    Arises eval (Tree.node .binaryOp [op, left, right] place).operands d := by
  rw [evalNode] at h
  rw [Tree.operands]
  cases hop : op.binaryOp? with
  | none =>
      rw [hop] at h
      cases h
      exact .own (List.forall_mem_nil _)
  | some binary =>
      rw [hop] at h
      cases hleft : eval left with
      | error failure =>
          rw [hleft] at h
          cases h
          exact .operand (List.nil_append [left, right]).symm (List.forall_mem_nil _) hleft
      | ok first =>
          rw [hleft] at h
          cases hright : eval right with
          | error failure =>
              rw [hright] at h
              cases h
              exact .operand (List.singleton_append).symm
                (List.forall_mem_singleton.mpr ⟨first, hleft⟩) hright
          | ok second =>
              rw [hright] at h
              obtain ⟨cause, rfl⟩ := Fresh.applyBinary binary first second d h
              exact .own (List.forall_mem_cons.mpr
                ⟨⟨first, hleft⟩, List.forall_mem_singleton.mpr ⟨second, hright⟩⟩)

/-- A diagnostic of a node is that of its first operand that fails, or one without a place that the
node makes of itself. -/
theorem evalNode_eq_diagnostic {t : Tree} {d : Diagnostic}
    (h : evalNode scope eval t = .error (.diagnostic d)) : Arises eval t.operands d := by
  cases t with
  | node label children place =>
      cases label with
      | number =>
          obtain ⟨child, _, h⟩ := bind_eq_diagnostic (firstChild_ne_diagnostic children) h
          obtain ⟨x, _, h⟩ := bind_eq_diagnostic (toNumber_ne_diagnostic child) h
          cases h
      | string =>
          obtain ⟨child, _, h⟩ := bind_eq_diagnostic (firstChild_ne_diagnostic children) h
          cases h
      | boolean =>
          obtain ⟨child, _, h⟩ := bind_eq_diagnostic (firstChild_ne_diagnostic children) h
          cases h
      | void => cases h
      | identifier =>
          obtain ⟨child, _, h⟩ := bind_eq_diagnostic (firstChild_ne_diagnostic children) h
          obtain ⟨name, _, h⟩ := bind_eq_diagnostic (toName_ne_diagnostic child) h
          cases hfind : scope.find? name with
          | some value =>
              simp only [hfind] at h
              cases h
          | none =>
              simp only [hfind] at h
              cases h
              exact .own (List.forall_mem_nil _)
      | unaryOp =>
          rcases children with _ | ⟨op, _ | ⟨operand, _ | _⟩⟩
          case cons.cons.nil => exact evalNode_unary_eq_diagnostic h
          all_goals cases h
      | binaryOp =>
          rcases children with _ | ⟨op, _ | ⟨left, _ | ⟨right, _ | _⟩⟩⟩
          case cons.cons.cons.nil => exact evalNode_binary_eq_diagnostic h
          all_goals cases h
      | block =>
          rw [evalNode] at h
          cases hrun : children.forM fun child => discard (eval child) with
          | ok done =>
              rw [hrun] at h
              cases h
          | error failure =>
              rw [hrun] at h
              cases h
              obtain ⟨before, child, behind, hsplit, hbefore, hchild⟩ := forM_eq_error hrun
              exact .operand hsplit hbefore hchild
      | _ =>
          cases h
          exact .own (List.forall_mem_nil _)
  | _ =>
      cases h
      exact .own (List.forall_mem_nil _)

end Step

section Run

variable {scope : Scope}

/-- Of two spans that are offered to a fresh diagnostic the first counts. -/
theorem Diagnostic.attach_attach (cause : Cause) (source filename : Option String)
    (span outer : Option Span) :
    ((Diagnostic.attach { cause } source span filename).attach source outer filename) =
      Diagnostic.attach { cause } source (span.or outer) filename := by
  cases source with
  | none => cases span <;> rfl
  | some text =>
      cases span with
      | none => rfl
      | some span => rfl

theorem Tree.span?_of_span {t : Tree} {span : Option Span} (h : t.span = .ok span) :
    t.span? = span := by
  rw [Tree.span] at h
  rw [Tree.span?]
  cases hplace : t.place? with
  | none =>
      rw [hplace] at h
      exact Except.ok.inj h
  | some place =>
      rw [hplace] at h
      obtain ⟨extent, line, column⟩ := place
      cases extent with
      | error bad => cases h
      | ok extent => exact Except.ok.inj h

theorem Failure.locate_eq_diagnostic {t : Tree} {failure : Failure} {d : Diagnostic}
    (h : failure.locate scope t = .diagnostic d) :
    ∃ inner, failure = .diagnostic inner ∧ d = inner.attach scope.source t.span? scope.filename := by
  cases failure with
  | diagnostic inner =>
      cases hspan : t.span with
      | error bad =>
          rw [Failure.locate, hspan] at h
          cases h
      | ok span =>
          rw [Failure.locate, hspan] at h
          cases h
          exact ⟨inner, rfl, by rw [Tree.span?_of_span hspan]⟩
  | _ => cases h

theorem Tree.eval_of_le {t : Tree} {room most : Nat} {result : Except Failure Operand}
    (h : t.eval scope room = result) (hdeep : result ≠ .error .tooDeep) (hle : room ≤ most) :
    t.eval scope most = result := by
  obtain ⟨more, rfl⟩ := Nat.exists_eq_add_of_le hle
  rcases t.eval_persists scope room more with htoo | hsame
  · exact absurd (h.symm.trans htoo) hdeep
  · exact hsame.trans h

/-- A diagnostic was fresh at the end of the path and was then offered the spans on the way up. -/
theorem Tree.eval_eq_diagnostic {room most : Nat} (hle : room ≤ most) {t : Tree} {d : Diagnostic}
    (h : t.eval scope room = .error (.diagnostic d)) :
    ∃ path cause, FailurePath (Tree.eval scope most) t path ∧
      d = Diagnostic.attach { cause } scope.source (innermostSpan? path) scope.filename := by
  induction room generalizing t d with
  | zero => cases h
  | succ room ih =>
      have hroom : room ≤ most := Nat.le_of_succ_le hle
      have hfails := Tree.eval_of_le h nofun hle
      have hvalues {trees : List Tree} (hall : ∀ c ∈ trees, ∃ v, c.eval scope room = .ok v) :
          ∀ c ∈ trees, ∃ v, c.eval scope most = .ok v := by
        intro c member
        obtain ⟨v, hv⟩ := hall c member
        exact ⟨v, Tree.eval_of_le hv nofun hroom⟩
      rw [Tree.eval] at h
      cases hnode : evalNode scope (Tree.eval scope room) t with
      | ok v =>
          rw [hnode] at h
          cases h
      | error failure =>
          rw [hnode] at h
          obtain ⟨inner, rfl, rfl⟩ := Failure.locate_eq_diagnostic (Except.error.inj h)
          cases evalNode_eq_diagnostic hnode with
          | @own cause hoperands =>
              refine ⟨[t], cause, .own hfails (hvalues hoperands), ?_⟩
              rw [innermostSpan?_cons]
              rfl
          | operand hsplit hbefore hchild =>
              obtain ⟨path, cause, hpath, rfl⟩ := ih hroom hchild
              refine ⟨t :: path, cause, .operand hfails hsplit (hvalues hbefore) hpath, ?_⟩
              rw [innermostSpan?_cons, Diagnostic.attach_attach]

end Run

/-- If a tree, whatever its shape, evaluates to a diagnostic, there is one path from it down to the
tree that failed of itself. With a source, and a span anywhere on the path, the diagnostic is located
at the deepest span of the path and under the given file name; otherwise it is not located and has
neither span nor file name. -/
theorem diagnostic_takes_innermost_place (t : Tree) (source filename : Option String)
    (bindings : Entries Value) (limits : Limits) (d : Diagnostic)
    (h : evaluate t source filename bindings limits = .error (.diagnostic d)) :
    let value (n : Tree) := evaluate n source filename bindings limits
    ∃ path, FailurePath value t path ∧ (∀ other, FailurePath value t other → other = path) ∧
      (∀ text span, source = some text → Tree.innermostSpan? path = some span →
        d.isLocated = true ∧ d.source = some text ∧ d.span = some span ∧ d.filename = filename) ∧
      (source = none ∨ Tree.innermostSpan? path = none →
        d.isLocated = false ∧ d.span = none ∧ d.filename = none) := by
  intro value
  obtain ⟨path, cause, hpath, rfl⟩ := Tree.eval_eq_diagnostic (Nat.le_refl limits.evaluation) h
  refine ⟨path, hpath, fun other hother => hpath.unique hother, ?_, ?_⟩
  · rintro text span rfl hspan
    rw [hspan]
    exact ⟨rfl, rfl, rfl, rfl⟩
  · rintro (rfl | hnone)
    · exact ⟨rfl, rfl, rfl⟩
    · rw [hnone]
      cases source with
      | none => exact ⟨rfl, rfl, rfl⟩
      | some text => exact ⟨rfl, rfl, rfl⟩

/-- A sign without a place stands before a token, in a block that has a place. The token cannot be
evaluated. The diagnostic points at the token if that has a place, and else, past the sign, at the
block. -/
theorem diagnostic_takes_innermost_place_token :
    let whole : Place := ⟨.ok { start := 0, stop := 8 }, 1, 1⟩
    let name : Place := ⟨.ok { start := 7, stop := 8 }, 1, 8⟩
    let operand (place : Option Place) : Tree := .token "IDENTIFIER" "x" place
    let signed (place : Option Place) : Tree :=
      .node .unaryOp [.token "MINUS" "-" none, operand place] none
    let tree (place : Option Place) : Tree :=
      .node .block [.node .void [] none, signed place] (some whole)
    let path (place : Option Place) := [tree place, signed place, operand place]
    let value (n : Tree) := evaluate n (some "void; -x") none [] {}
    (∃ d, value (tree (some name)) = .error (.diagnostic d) ∧
      FailurePath value (tree (some name)) (path (some name)) ∧
      d.isLocated = true ∧ d.span = some { start := 7, stop := 8 }) ∧
    ∃ d, value (tree none) = .error (.diagnostic d) ∧
      FailurePath value (tree none) (path none) ∧
      d.isLocated = true ∧ d.span = some { start := 0, stop := 8 } := by
  intro whole name operand signed tree path value
  have hvoid : ∀ c ∈ [Tree.node .void [] none], ∃ v, value c = .ok v :=
    List.forall_mem_singleton.mpr ⟨Value.void, rfl⟩
  have hpoints {place : Option Place} {span : Span} {d : Diagnostic}
      (hd : value (tree place) = .error (.diagnostic d))
      (hpath : FailurePath value (tree place) (path place))
      (hspan : Tree.innermostSpan? (path place) = some span) :
      d.isLocated = true ∧ d.span = some span := by
    obtain ⟨found, _, hunique, hlocated, _⟩ :=
      diagnostic_takes_innermost_place (tree place) (some "void; -x") none [] {} d hd
    obtain rfl := hunique _ hpath
    obtain ⟨hlocated, _, hspan, _⟩ := hlocated _ _ rfl hspan
    exact ⟨hlocated, hspan⟩
  constructor
  · have hpath : FailurePath value (tree (some name)) (path (some name)) :=
      .operand rfl List.singleton_append.symm hvoid
        (.operand rfl (List.nil_append _).symm nofun (.own rfl nofun))
    obtain ⟨d, hd⟩ : ∃ d, value (tree (some name)) = .error (.diagnostic d) := ⟨_, rfl⟩
    exact ⟨d, hd, hpath, hpoints hd hpath rfl⟩
  · have hpath : FailurePath value (tree none) (path none) :=
      .operand rfl List.singleton_append.symm hvoid
        (.operand rfl (List.nil_append _).symm nofun (.own rfl nofun))
    obtain ⟨d, hd⟩ : ∃ d, value (tree none) = .error (.diagnostic d) := ⟨_, rfl⟩
    exact ⟨d, hd, hpath, hpoints hd hpath rfl⟩

/-- A string that holds a number is no failure: the name behind it is, or the sign before it. -/
example :
    let held : Tree := .node .string [.number 1] none
    let name : Tree := .node .identifier [.token "IDENTIFIER" "y" none] none
    evaluate (.node .block [held, name] none) none none [] {} =
        .error (.ofCause (.undefinedName "y")) ∧
      evaluate (.node .unaryOp [.token "MINUS" "-" none, held] none) none none [] {} =
        .error (.ofCause (.invalidUnaryOperation "-" "string")) :=
  ⟨rfl, rfl⟩

end Glass
