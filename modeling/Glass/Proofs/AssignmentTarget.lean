import Glass.Proofs.TreePlaces

/-!
What is assigned to. The operator of an assignment is taken only behind a name, and the name may stand
in parentheses, which leave no trace in the tree. Everywhere else an assignment operator is refused,
and blamed itself: behind other expressions, inside brackets, and where an operand is due.
-/

namespace Glass.Grammar

/-- The tokens end with a target: a name, in any number of parentheses, that starts a statement. -/
def EndsWithTarget (tokens : List Token) : Prop :=
  ∃ front statements ts target, tokens = front ++ ts ∧
    OpenRow (.symbol .semicolon) Statement statements front ∧ Target ts target

/-- The tokens `ts` are those of one statement, between the front and the back of a program. -/
structure StatementAt (tokens front ts back : List Token) : Prop where
  tokens_eq : tokens = front ++ (ts ++ back)
  before : ∃ statements, OpenRow (.symbol .semicolon) Statement statements front
  behind : ∀ t ∈ back.head?, t.kind = .symbol .semicolon

/-- The parts of an assignment, and its tree. -/
inductive Assignment : List Token → Token → List Token → Tree → Prop where
  | intro {ts us : List Token} {op : Token} {target value : Tree} :
      Target ts target → op.kind.isAssignment = true → Expression 1 us value →
      Assignment ts op us (.assignment (.ofToken op) target value)

/-- A target is a bare name unless it starts with a parenthesis. -/
theorem Target.bare_iff {ts : List Token} {tree : Tree} (h : Target ts tree) :
    (∃ name : Token, name.kind = .identifier ∧ ts = [name]) ↔
      ∀ t ∈ ts.head?, t.kind ≠ .symbol .leftParen := by
  cases h with
  | @name name hname =>
      refine iff_of_true ⟨name, hname, rfl⟩ fun t member => ?_
      obtain rfl := Option.some.inj member
      rw [hname]
      nofun
  | @group opening closing ts _ hopening =>
      refine iff_of_false ?_ fun hbare => hbare opening rfl hopening
      rintro ⟨name, _, htokens⟩
      cases ts <;> cases htokens

end Glass.Grammar

namespace Glass.Tree

/-- No node of the tree is an assignment. -/
def AssignsNothing (t : Tree) : Prop := ∀ part ∈ t.parts, part.label? ≠ some .assignment

theorem assignsNothing_ofToken (t : Token) : (ofToken t).AssignsNothing :=
  List.forall_mem_singleton.mpr nofun

theorem assignsNothing_node {label : Label} {children : List Tree} {place : Option Place}
    (hlabel : label ≠ .assignment) (hchildren : ∀ child ∈ children, child.AssignsNothing) :
    (node label children place).AssignsNothing := by
  intro part member
  rcases List.mem_cons.mp member with rfl | member
  · exact fun heq => hlabel (Option.some.inj heq)
  · obtain ⟨child, hchild, hpart⟩ := mem_partsOfAll.mp member
    exact hchildren child hchild part hpart

theorem mem_parts_block {statements : List Tree} {part : Tree}
    (h : part ∈ (block statements).parts) :
    part.label? = some .block ∨ ∃ child ∈ statements, part ∈ child.parts := by
  unfold block at h
  split at h
  · rcases List.mem_cons.mp h with rfl | member
    · exact Or.inl rfl
    · exact Or.inr (mem_partsOfAll.mp member)
  · obtain rfl := List.mem_singleton.mp h
    exact Or.inl rfl

end Glass.Tree

namespace Glass.Grammar

open Glass.Tree

theorem Literal.assignsNothing {t : Token} {tree : Tree} (h : Literal t tree) :
    tree.AssignsNothing := by
  have hpayload : t.payload.child.AssignsNothing := by
    cases t.payload <;> exact List.forall_mem_nil _
  have hflag (b : Bool) : (Tree.flag b).AssignsNothing := List.forall_mem_nil _
  cases h with
  | number | string =>
      exact assignsNothing_node (by decide) (List.forall_mem_singleton.mpr hpayload)
  | truth | falsity =>
      exact assignsNothing_node (by decide) (List.forall_mem_singleton.mpr (hflag _))
  | void => exact assignsNothing_node (by decide) (List.forall_mem_nil _)

/-- Expressions hold no assignments. -/
theorem Expression.assignsNothing {level : Nat} {ts : List Token} {tree : Tree}
    (h : Expression level ts tree) : tree.AssignsNothing := by
  induction h with
  | operation _ _ _ ihl ihr =>
      apply assignsNothing_node (by decide)
      simp only [List.forall_mem_cons]
      exact ⟨assignsNothing_ofToken _, ihl, ihr, List.forall_mem_nil _⟩
  | tighter _ _ ih => exact ih
  | signed _ _ ih =>
      apply assignsNothing_node (by decide)
      simp only [List.forall_mem_cons]
      exact ⟨assignsNothing_ofToken _, ih, List.forall_mem_nil _⟩
  | literal hliteral => exact hliteral.assignsNothing
  | name | emptyCall =>
      apply assignsNothing_node (by decide)
      exact List.forall_mem_singleton.mpr (assignsNothing_ofToken _)
  | call _ _ _ _ _ _ ihfirst ihmore =>
      apply assignsNothing_node (by decide)
      simp only [rowTrees, List.forall_mem_cons, List.forall_mem_map]
      exact ⟨assignsNothing_ofToken _, ihfirst, ihmore⟩
  | group _ _ _ ih => exact ih

/-- The only assignment in a statement is the statement itself. -/
theorem Statement.assignment_of_part {ts : List Token} {tree part : Tree} (h : Statement ts tree)
    (member : part ∈ tree.parts) (hlabel : part.label? = some .assignment) :
    ∃ vs op us, ts = vs ++ op :: us ∧ Assignment vs op us part := by
  cases h with
  | expression _ hexpression => exact absurd hlabel (hexpression.assignsNothing part member)
  | @assignment op vs us target value htarget hop hvalue =>
      rcases List.mem_cons.mp member with rfl | member
      · exact ⟨vs, op, us, rfl, .intro htarget hop hvalue⟩
      · refine absurd hlabel ?_
        obtain ⟨child, hchild, hpart⟩ := mem_partsOfAll.mp member
        simp only [List.mem_cons, List.not_mem_nil, or_false] at hchild
        rcases hchild with rfl | rfl | rfl
        · exact assignsNothing_ofToken op part hpart
        · exact htarget.expression.1.assignsNothing part hpart
        · exact hvalue.assignsNothing part hpart

/-- Each statement of a row has its place in the program. -/
theorem statementAt_of_mem {first : Tree} {ts front closing : List Token} {more : List Item}
    {statements : List Tree} {tree : Tree}
    (hfront : OpenRow (.symbol .semicolon) Statement statements front) (hfirst : Statement ts first)
    (hsemicolons : ∀ item ∈ more, item.separator.kind = .symbol .semicolon)
    (hitems : ∀ item ∈ more, Statement item.tokens item.tree)
    (hclosing : ∀ t ∈ closing.head?, t.kind = .symbol .semicolon)
    (member : tree ∈ rowTrees first more) :
    ∃ before us back, StatementAt (front ++ (rowTokens ts more ++ closing)) before us back ∧
      Statement us tree := by
  induction more generalizing first ts front statements with
  | nil =>
      obtain rfl := List.mem_singleton.mp member
      refine ⟨front, ts, closing, ⟨?_, ⟨_, hfront⟩, hclosing⟩, hfirst⟩
      simp [rowTokens]
  | cons item more ih =>
      obtain ⟨hsemicolon, hsemicolons⟩ := List.forall_mem_cons.mp hsemicolons
      obtain ⟨hitem, hitems⟩ := List.forall_mem_cons.mp hitems
      rw [rowTokens_cons]
      rcases List.mem_cons.mp member with rfl | member
      · refine ⟨front, ts, item.separator :: (rowTokens item.tokens more ++ closing),
          ⟨?_, ⟨_, hfront⟩, fun t ht => ?_⟩, hfirst⟩
        · simp
        · obtain rfl := Option.some.inj ht
          exact hsemicolon
      · have hrest := ih (hfront.extend hfirst hsemicolon) hitem hsemicolons hitems member
        simpa using hrest

theorem assignment_of_row {ts : List Token} {first part : Tree} {more : List Item}
    (closing : List Token) (hfirst : Statement ts first)
    (hsemicolons : ∀ item ∈ more, item.separator.kind = .symbol .semicolon)
    (hitems : ∀ item ∈ more, Statement item.tokens item.tree)
    (hclosing : ∀ t ∈ closing.head?, t.kind = .symbol .semicolon)
    (member : ∃ tree ∈ rowTrees first more, part ∈ tree.parts)
    (hlabel : part.label? = some .assignment) :
    ∃ front vs op us back, StatementAt (rowTokens ts more ++ closing) front (vs ++ op :: us) back ∧
      Assignment vs op us part := by
  obtain ⟨tree, htree, hpart⟩ := member
  obtain ⟨front, ws, back, hat, hstatement⟩ :=
    statementAt_of_mem .empty hfirst hsemicolons hitems hclosing htree
  obtain ⟨vs, op, us, rfl, hassignment⟩ := hstatement.assignment_of_part hpart hlabel
  exact ⟨front, vs, op, us, back, hat, hassignment⟩

/-- An assignment in a program's tree is one of the program's statements. -/
theorem Program.assignment_of_part {tokens : List Token} {tree part : Tree}
    (h : Program tokens tree) (member : part ∈ tree.parts)
    (hlabel : part.label? = some .assignment) :
    ∃ front ts op us back, StatementAt tokens front (ts ++ op :: us) back ∧
      Assignment ts op us part := by
  have hblock {statements : List Tree} (hmember : part ∈ (block statements).parts) :
      ∃ statement ∈ statements, part ∈ statement.parts := by
    apply (mem_parts_block hmember).resolve_left
    rw [hlabel]
    nofun
  cases h with
  | single hstatement =>
      obtain ⟨ts, op, us, rfl, hassignment⟩ := hstatement.assignment_of_part member hlabel
      exact ⟨[], ts, op, us, [], ⟨by simp, ⟨_, .empty⟩, by simp⟩, hassignment⟩
  | row hfirst _ hsemicolons hitems =>
      have hrow := assignment_of_row [] hfirst hsemicolons hitems (by simp) (hblock member) hlabel
      rwa [List.append_nil] at hrow
  | closedRow hfirst hsemicolons hitems hclosing =>
      refine assignment_of_row _ hfirst hsemicolons hitems (fun t ht => ?_) (hblock member) hlabel
      obtain rfl := Option.some.inj ht
      exact hclosing

end Glass.Grammar

namespace Glass.Parser.State

open Glass.Grammar

theorem Moves.split {s last : State} {ts us : List Token} (h : Moves s (ts ++ us) last) :
    ∃ middle, Moves s ts middle ∧ Moves middle us last := by
  induction ts generalizing s with
  | nil => exact ⟨s, .nil, h⟩
  | cons t ts ih =>
      cases h with
      | cons htransition hrest =>
          obtain ⟨middle, hmoves, hrest⟩ := ih hrest
          exact ⟨middle, .cons htransition hmoves, hrest⟩

/-- An assignment operator is only taken behind a target. -/
theorem Transition.endsWithTarget {s next : State} {t : Token} {ts : List Token}
    (h : Transition s t next) (hkind : t.kind.isAssignment = true) (hreads : Reads s ts) :
    EndsWithTarget ts := by
  obtain ⟨hoperator, hopening, _, hsemicolon⟩ := isAssignment_not_operator hkind
  cases h with
  | assign hoperand houter _ _ htarget hlabel =>
      obtain ⟨front, back, rfl, _, hdone, hname⟩ := hreads.target hoperand houter htarget hlabel
      exact ⟨front, _, back, _, rfl, hdone, hname⟩
  | sign _ hsign =>
      obtain ⟨op, hop⟩ := Option.isSome_iff_exists.mp (mem_prefixes_iff.mp hsign)
      rw [← UnaryOp.kind_of_ofKind? hop] at hkind
      cases op <;> cases hkind
  | literal _ hliteral =>
      cases hliteral with
      | _ hliteral =>
          rw [hliteral] at hkind
          cases hkind
  | openGroup _ hparen | openCall _ hparen => exact absurd hparen hopening
  | operator _ hop =>
      rw [hoperator] at hop
      cases hop
  | semicolon _ _ _ hend => exact absurd hend hsemicolon
  | name _ hother | closeEmptyCall _ _ hother | closeGroup _ _ hother | comma _ _ hother
  | closeCall _ _ hother =>
      rw [hother] at hkind
      cases hkind

/-- Behind anything else the operator is refused. -/
theorem step_of_not_endsWithTarget {s : State} {t : Token} {ts : List Token} (limit : Nat)
    (hgoal : s.goal = .program) (hkind : t.kind.isAssignment = true) (hreads : Reads s ts)
    (htarget : ¬EndsWithTarget ts) :
    ∃ expected taken, s.step limit t = .reject (.unexpected expected t) taken := by
  have houtcome := step_outcome limit s t
  generalize s.step limit t = move at houtcome
  cases houtcome with
  | shift htransition => exact absurd (htransition.endsWithTarget hkind hreads) htarget
  | tooDeep htransition => exact absurd (htransition.endsWithTarget hkind hreads) htarget
  | acceptExpression _ _ hother | acceptStatement _ _ hother => cases hgoal.symm.trans hother
  | flawed hflaw =>
      rw [(isAssignment_not_operator hkind).2.2.1] at hflaw
      cases hflaw
  | unsupported hword =>
      cases ht : t.kind with
      | keyword =>
          rw [ht] at hkind
          cases hkind
      | _ =>
          rw [ht] at hword
          cases hword
  | unexpected => exact ⟨_, _, rfl⟩

end Glass.Parser.State

namespace Glass

open Grammar Parser.State

section Operators

variable {source : String} {filename : Option String} {limits : Limits} {front rest : List Token}
  {op : Token}

/-- An operator that follows no target is to blame, if the tokens before it are in order. -/
theorem parseProgram_of_not_endsWithTarget (htokens : tokenize source = front ++ op :: rest)
    (hkind : op.kind.isAssignment = true) {more : List Token} {tree : Tree}
    (hfront : Program (front ++ more) tree)
    (hdepth : parseProgram source filename limits ≠ .error .tooDeep)
    (htarget : ¬EndsWithTarget front) :
    ∃ expected, parseProgram source filename limits =
      .error (.diagnostic (.unexpectedToken expected op source filename)) := by
  obtain ⟨_, hfinishes, _⟩ := finishes_program hfront
  obtain ⟨last, hmoves, _⟩ := hfinishes.split
  have hinitial : Parser.State.Reads (initial .program) [] := reads_initial (by decide)
  have hreads := hmoves.reads hinitial
  rw [List.nil_append] at hreads
  obtain ⟨expected, taken, hstep⟩ :=
    step_of_not_endsWithTarget limits.nesting hmoves.goal_eq hkind hreads htarget
  refine ⟨expected, ?_⟩
  rcases hmoves.run limits.nesting (op :: rest) with hrun | hdeep
  · have hreject : (last.run limits.nesting (op :: rest)).1 = .error (.unexpected expected op) := by
      rw [(Ends.reject hstep).run]
    rw [← hrun, ← htokens] at hreject
    exact parseProgram_of_run hreject
  · rw [← htokens] at hdeep
    exact absurd (parseProgram_of_run hdeep) hdepth

theorem span_ne_of_behind {between behind : List Token} {t : Token}
    (htokens : tokenize source = front ++ op :: (between ++ t :: behind)) : t.span ≠ op.span := by
  intro hspan
  have hop : (tokenize source)[front.length]? = some op := by simp [htokens]
  have ht : (tokenize source)[front.length + (between.length + 1)]? = some t := by
    rw [htokens, List.getElem?_append_right (Nat.le_add_right _ _), Nat.add_sub_cancel_left]
    simp
  have hsame := tokenize_span_injective ht hop hspan
  omega

/-- Behind a target the operator is taken, so that any fault lies with a later token. -/
theorem not_unexpected_of_endsWithTarget (htokens : tokenize source = front ++ op :: rest)
    (hkind : op.kind.isAssignment = true) (htarget : EndsWithTarget front)
    (expected : Option Kind) :
    parseProgram source filename limits ≠
      .error (.diagnostic (.unexpectedToken expected op source filename)) := by
  obtain ⟨before, statements, ts, target, rfl, hbefore, hname⟩ := htarget
  obtain ⟨middle, next, hmoves, hassign, _⟩ :=
    transition_of_target hname hkind (fresh_statement statements)
  have htaken : Moves (initial .program) ((before ++ ts) ++ [op]) next :=
    ((moves_openRow hbefore).append hmoves).append (.single hassign)
  intro h
  obtain ⟨fault, hresult, hfailure⟩ := Parser.program_eq_error h
  change ((initial .program).run limits.nesting (tokenize source)).1 = .error fault at hresult
  rw [htokens, ← List.singleton_append, ← List.append_assoc] at hresult
  rcases htaken.run limits.nesting rest with hrun | hdeep
  · rw [hrun] at hresult
    rcases run_eq_error hresult with ⟨rfl, _⟩ | ⟨between, t, behind, _, _, rfl, _, hstep⟩
    · cases hfailure
    · rcases Parser.State.step_eq_reject hstep with rfl | hblames
      · cases hfailure
      · obtain ⟨cause, _, hdiagnostic⟩ :=
          Parser.failure_of_blames (.ofText source filename) hblames
        have hsame := Failure.diagnostic.inj (hdiagnostic.symm.trans hfailure)
        have hspan : t.span = op.span := Option.some.inj (congrArg Diagnostic.span hsame)
        exact span_ne_of_behind htokens hspan
  · rw [hresult] at hdeep
    obtain rfl := Except.error.inj hdeep
    cases hfailure

end Operators

theorem exists_parsed_of_label {source : String} {filename : Option String} {limits : Limits}
    {label : Label}
    (h : (parseProgram source filename limits).toOption.bind Tree.label? = some label) :
    ∃ tree, parseProgram source filename limits = .ok tree ∧ tree ∈ tree.parts ∧
      tree.label? = some label := by
  cases hparse : parseProgram source filename limits with
  | error =>
      rw [hparse] at h
      cases h
  | ok tree =>
      rw [hparse] at h
      refine ⟨tree, rfl, ?_, h⟩
      cases tree with
      | node => exact List.mem_cons_self
      | _ => cases h

/-- The statement of every assignment in a parsed program starts with its target and the operator,
and the target is a name, but it may stand in parentheses: the statement starts with a bare name and
the operator exactly if it does not start with a parenthesis. Any other assignment operator is to
blame for itself, if nothing before it is and the nesting does not go too deep. -/
theorem assignment_targets_are_names (source : String) (filename : Option String)
    (limits : Limits) :
    (∀ tree, parseProgram source filename limits = .ok tree →
      ∀ part ∈ tree.parts, part.label? = some .assignment →
        ∃ front ts op us back, StatementAt (tokenize source) front (ts ++ op :: us) back ∧
          Assignment ts op us part ∧
          ((∃ name : Token, name.kind = .identifier ∧ ts = [name]) ↔
            ∀ t ∈ ts.head?, t.kind ≠ .symbol .leftParen)) ∧
    (∀ front op rest, tokenize source = front ++ op :: rest → op.kind.isAssignment = true →
      (∃ more tree, Program (front ++ more) tree) →
      parseProgram source filename limits ≠ .error .tooDeep →
        ((∃ expected, parseProgram source filename limits =
          .error (.diagnostic (.unexpectedToken expected op source filename))) ↔
          ¬EndsWithTarget front)) := by
  constructor
  · intro tree hparse part member hlabel
    obtain ⟨front, ts, op, us, back, hat, hassignment⟩ :=
      (program_of_parseProgram hparse).assignment_of_part member hlabel
    refine ⟨front, ts, op, us, back, hat, hassignment, ?_⟩
    cases hassignment with
    | intro htarget => exact htarget.bare_iff
  · rintro front op rest htokens hkind ⟨more, tree, hfront⟩ hdepth
    constructor
    · rintro ⟨expected, hunexpected⟩ htarget
      exact not_unexpected_of_endsWithTarget htokens hkind htarget expected hunexpected
    · exact parseProgram_of_not_endsWithTarget htokens hkind hfront hdepth

/-- In `x += y` a name is assigned to, and in `f() = x` a call cannot be. -/
theorem assignment_targets_are_names_call :
    (∃ tree, parseProgram "x += y" none {} = .ok tree ∧ tree ∈ tree.parts ∧
      tree.label? = some .assignment ∧
      ∃ front ts op us back, StatementAt (tokenize "x += y") front (ts ++ op :: us) back ∧
        Assignment ts op us tree) ∧
    let token (kind : Kind) (text : String) (start : Nat) : Token :=
      ⟨kind, .text text, ⟨start, start + 1, Nat.le_succ start⟩, 1, start + 1⟩
    let f := token .identifier "f" 0
    let opening := token (.symbol .leftParen) "(" 1
    let closing := token (.symbol .rightParen) ")" 2
    let op := token (.symbol .assign) "=" 4
    let x := token .identifier "x" 6
    tokenize "f() = x" = [f, opening, closing] ++ op :: [x] ∧ op.kind.isAssignment = true ∧
      (∃ more tree, Program ([f, opening, closing] ++ more) tree) ∧
      parseProgram "f() = x" none {} =
        .error (.diagnostic (.unexpectedToken none op "f() = x" none)) ∧
      ¬EndsWithTarget [f, opening, closing] := by
  constructor
  · obtain ⟨tree, hparse, member, hlabel⟩ :=
      @exists_parsed_of_label "x += y" none {} .assignment (by decide +kernel)
    obtain ⟨front, ts, op, us, back, hat, hassignment, _⟩ :=
      (assignment_targets_are_names "x += y" none {}).1 tree hparse tree member hlabel
    exact ⟨tree, hparse, member, hlabel, front, ts, op, us, back, hat, hassignment⟩
  · intro token f opening closing op x
    have htokens : tokenize "f() = x" = [f, opening, closing] ++ op :: [x] := rfl
    have hcall : Expression 1 [f, opening, closing] _ :=
      (Expression.emptyCall rfl rfl rfl).loosen (by decide)
    have hfront : ∃ more tree, Program ([f, opening, closing] ++ more) tree :=
      ⟨[], _, .single (.expression rfl hcall)⟩
    have hparse : parseProgram "f() = x" none {} =
        .error (.diagnostic (.unexpectedToken none op "f() = x" none)) := rfl
    have hblamed := (assignment_targets_are_names "f() = x" none {}).2 _ op _ htokens rfl hfront
      (by rw [hparse]; nofun)
    exact ⟨htokens, rfl, hfront, hparse, hblamed.mp ⟨none, hparse⟩⟩

/-- In `(x) = 1` the statement starts with a parenthesis, and yet it is an assignment. -/
theorem grouped_name_is_assigned :
    ∃ tree, parseProgram "(x) = 1" none {} = .ok tree ∧ tree ∈ tree.parts ∧
      tree.label? = some .assignment ∧
      (tokenize "(x) = 1").map Token.kind =
        [.symbol .leftParen, .identifier, .symbol .rightParen, .symbol .assign, .number] := by
  obtain ⟨tree, hparse, member, hlabel⟩ :=
    @exists_parsed_of_label "(x) = 1" none {} .assignment (by decide +kernel)
  exact ⟨tree, hparse, member, hlabel, by decide +kernel⟩

end Glass
