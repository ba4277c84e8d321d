import Glass.Parser
import Glass.Proofs.ParserSoundness

/-!
What the grammar derives is accepted by the parser. The machine is driven along a derivation: from a
state that awaits an operand it takes the tokens of an expression and reaches a state whose
operations, once settled, leave what waited before and the expression's tree. Rows of arguments and
of statements are driven item by item.
-/

namespace Glass.Parser

open Glass.Grammar

/-- Operations that do not bind tightly enough are left waiting. -/
theorem settle_of_looser {level : Nat} {operations : List Operation} (right : Tree)
    (h : ∀ looser ∈ operations.head?, looser.op.level < level) :
    settle level operations right = (operations, right) := by
  cases operations with
  | nil => rfl
  | cons o rest =>
      have hlooser : ¬ level ≤ o.op.level := Nat.not_le.mpr (h o rfl)
      rw [settle, if_neg hlooser]

/-- Settling tightly bound operations first changes nothing. -/
theorem settle_settle {level tighter : Nat} (hle : level ≤ tighter) (operations : List Operation)
    (right : Tree) :
    settle level (settle tighter operations right).1 (settle tighter operations right).2 =
      settle level operations right := by
  induction operations generalizing right with
  | nil => rfl
  | cons o rest ih =>
      by_cases htight : tighter ≤ o.op.level
      · have hlevel : level ≤ o.op.level := Nat.le_trans hle htight
        simp only [settle, htight, hlevel, if_true]
        exact ih (o.apply right)
      · simp only [settle, htight, if_false]

theorem settle_of_settle {level tighter : Nat} {operations waiting : List Operation}
    {right left : Tree} (hle : level ≤ tighter)
    (h : settle tighter operations right = (waiting, left)) :
    settle level operations right = settle level waiting left := by
  rw [← settle_settle hle operations right, h]

theorem settle_operand (operations : List Operation) (right : Tree) {level : Nat}
    (hlevel : unaryLevel ≤ level) : settle level operations right = (operations, right) :=
  settle_of_looser right fun looser _ =>
    Nat.lt_of_lt_of_le looser.op.level_lt_unaryLevel hlevel

namespace State

/-- The two states stand inside the same brackets of the same statement. -/
structure SameContext (s last : State) : Prop where
  goal : last.goal = s.goal
  statements : last.statements = s.statements
  target : last.target = s.target
  outer : last.outer = s.outer

theorem SameContext.trans {s middle last : State} (first : SameContext s middle)
    (second : SameContext middle last) : SameContext s last :=
  ⟨second.goal.trans first.goal, second.statements.trans first.statements,
    second.target.trans first.target, second.outer.trans first.outer⟩

theorem SameContext.floor_eq {s last : State} (h : SameContext s last) :
    last.floor = s.floor := by
  unfold floor
  rw [h.goal, h.outer]

/-- An expression of the level may come next: nothing that waits binds as tightly, and signs wait
only in front of an operand. -/
structure Ready (s : State) (level : Nat) : Prop where
  awaits : s.Awaits
  floor_le : s.floor ≤ level
  signs : level < unaryLevel → s.inner.signs = []
  looser : ∀ o ∈ s.inner.operations.head?, o.op.level < level

/-- The machine takes the tokens as an expression of the level with the given tree. -/
def Takes (s : State) (level : Nat) (ts : List Token) (tree : Tree) : Prop :=
  ∃ last operand, Moves s ts last ∧ SameContext s last ∧ last.operand? = some operand ∧
    settle level last.inner.operations operand =
      (s.inner.operations, applySigns s.inner.signs tree)

theorem Ready.tighten {s : State} {level : Nat} (h : s.Ready level) : s.Ready (level + 1) where
  awaits := h.awaits
  floor_le := Nat.le_succ_of_le h.floor_le
  signs := fun hlevel => h.signs (Nat.lt_of_succ_lt hlevel)
  looser := fun o member => Nat.lt_succ_of_lt (h.looser o member)

theorem Takes.loosen {s : State} {level : Nat} {ts : List Token} {tree : Tree}
    (h : s.Takes (level + 1) ts tree) (hready : s.Ready level) : s.Takes level ts tree := by
  obtain ⟨last, operand, hmoves, hsame, hoperand, hsettle⟩ := h
  refine ⟨last, operand, hmoves, hsame, hoperand, ?_⟩
  rw [settle_of_settle (Nat.le_succ level) hsettle]
  exact settle_of_looser _ hready.looser

/-- A right operand follows its left operand and the operator. -/
theorem Takes.operation {s : State} {op : BinaryOp} {ts us : List Token} {t : Token}
    {left right : Tree} (hready : s.Ready op.level) (hop : BinaryOp.ofKind? t.kind = some op)
    (hleft : s.Takes op.level ts left)
    (hright : ∀ s : State, s.Ready (op.level + 1) → s.Takes (op.level + 1) us right) :
    s.Takes op.level (ts ++ t :: us) (.binaryOp (.ofToken t) left right) := by
  obtain ⟨middle, operand, hmoves, hsame, hoperand, hsettle⟩ := hleft
  have hsigns := hready.signs op.level_lt_unaryLevel
  rw [hsigns] at hsettle
  have hfloor : middle.floor ≤ op.level := by
    rw [hsame.floor_eq]
    exact hready.floor_le
  have htransition := Transition.operator hoperand hop hfloor
  rw [hsettle] at htransition
  -- The operation waits now, so the right operand has to bind more tightly.
  have hnext : Ready { middle with
      inner := { operations := ⟨op, t, left⟩ :: s.inner.operations }, phase := .operand }
      (op.level + 1) :=
    { awaits := trivial
      floor_le := Nat.le_succ_of_le hfloor
      signs := fun _ => rfl
      looser := by
        intro o member
        cases member
        exact Nat.lt_succ_self _ }
  obtain ⟨last, operand', hmoves', hsame', hoperand', hsettle'⟩ := hright _ hnext
  refine ⟨last, operand', hmoves.append (.cons htransition hmoves'),
    hsame.trans ⟨hsame'.goal, hsame'.statements, hsame'.target, hsame'.outer⟩, hoperand', ?_⟩
  rw [settle_of_settle (Nat.le_succ _) hsettle', hsigns]
  simp only [settle, Nat.le_refl, if_true]
  exact settle_of_looser _ hready.looser

/-- Inside a bracket, where nothing waits yet, any expression may come next. -/
theorem ready_inside (s : State) (frame : Pending × Bracket) (outer : List (Pending × Bracket))
    (phase : Phase) (hawaits : Awaits { s with outer := frame :: outer, inner := {}, phase }) :
    Ready { s with outer := frame :: outer, inner := {}, phase } 1 where
  awaits := hawaits
  floor_le := Nat.le_of_eq (floor_of_outer rfl)
  signs := fun _ => rfl
  looser := by simp

theorem moves_openCall {s : State} {name opening : Token} (hawaits : s.Awaits)
    (hname : name.kind = .identifier) (hopening : opening.kind = .symbol .leftParen) :
    Moves s [name, opening]
      { s with outer := (s.inner, .call name []) :: s.outer, inner := {}, phase := .argument } :=
  have hopen : Transition { s with phase := .named name } opening
      { s with outer := (s.inner, .call name []) :: s.outer, inner := {}, phase := .argument } :=
    .openCall rfl hopening
  .cons (.name hawaits hname) (.single hopen)

/-- What was taken where nothing waited is the whole of the expression. -/
theorem Takes.whole {s : State} {level : Nat} {ts : List Token} {tree : Tree}
    (h : s.Takes level ts tree) (hinner : s.inner = {}) :
    ∃ last operand, Moves s ts last ∧ SameContext s last ∧ last.operand? = some operand ∧
      last.whole operand = tree := by
  obtain ⟨last, operand, hmoves, hsame, hoperand, hsettle⟩ := h
  refine ⟨last, operand, hmoves, hsame, hoperand, ?_⟩
  unfold State.whole
  rw [settle_of_settle (Nat.zero_le level) hsettle, hinner]
  rfl

/-- An atom that is complete in the context of `s` was taken by it. -/
theorem takes_atom {s last : State} {ts : List Token} {tree : Tree}
    (h : Moves s ts ({ last with outer := s.outer, inner := s.inner }.finishOperand tree))
    (hgoal : last.goal = s.goal) (hstatements : last.statements = s.statements)
    (htarget : last.target = s.target) : s.Takes atomLevel ts tree :=
  ⟨_, _, h, ⟨hgoal, hstatements, htarget, rfl⟩, rfl, settle_operand _ _ (by decide)⟩

/-- Arguments behind the first one are taken one after another. -/
theorem moves_arguments {more : List Item} {name : Token} {saved : Pending}
    {outer : List (Pending × Bracket)}
    (hcommas : ∀ item ∈ more, item.separator.kind = .symbol .comma)
    (hitems : ∀ item ∈ more, ∀ s : State, s.Ready 1 → s.Takes 1 item.tokens item.tree)
    {s : State} {arguments : List Tree} {operand tree : Tree}
    (houter : s.outer = (saved, .call name arguments) :: outer)
    (hoperand : s.operand? = some operand) (hwhole : s.whole operand = tree) :
    ∃ last arguments' operand',
      Moves s (more.flatMap fun item => item.separator :: item.tokens) last ∧
      last.goal = s.goal ∧ last.statements = s.statements ∧ last.target = s.target ∧
      last.outer = (saved, .call name arguments') :: outer ∧
      last.operand? = some operand' ∧
      (last.whole operand' :: arguments').reverse = arguments.reverse ++ rowTrees tree more := by
  induction more generalizing s arguments operand tree with
  | nil =>
      refine ⟨s, arguments, operand, .nil, rfl, rfl, rfl, houter, hoperand, ?_⟩
      rw [hwhole, List.reverse_cons]
      rfl
  | cons item more ih =>
      obtain ⟨hcomma, hcommas⟩ := List.forall_mem_cons.mp hcommas
      obtain ⟨hitem, hitems⟩ := List.forall_mem_cons.mp hitems
      have htransition := Transition.comma hoperand houter hcomma
      obtain ⟨middle, operand', hmoves, hsame, hoperand', hwhole'⟩ :=
        (hitem _ (ready_inside s _ outer .operand trivial)).whole rfl
      obtain ⟨last, arguments', operand'', hmoves', hgoal, hstatements, htarget, houter',
        hoperand'', hrow⟩ := ih hcommas hitems hsame.outer hoperand' hwhole'
      refine ⟨last, arguments', operand'', .cons htransition (hmoves.append hmoves'),
        hgoal.trans hsame.goal, hstatements.trans hsame.statements, htarget.trans hsame.target,
        houter', hoperand'', ?_⟩
      rw [hrow, hwhole, List.reverse_cons, List.append_assoc]
      rfl

/-- Every expression is taken wherever it may stand. -/
theorem takes_of_expression {level : Nat} {ts : List Token} {tree : Tree}
    (h : Expression level ts tree) {s : State} (hready : s.Ready level) :
    s.Takes level ts tree := by
  induction h generalizing s with
  | operation _ hkind _ ihl ihr =>
      obtain ⟨op, hop, rfl⟩ := mem_operators_iff.mp hkind
      exact Takes.operation hready hop (ihl hready) fun s hnext => ihr hnext
  | tighter _ _ ih => exact (ih hready.tighten).loosen hready
  | @signed op ts operand hkind _ ih =>
      have htransition := Transition.sign hready.awaits hkind hready.floor_le
      have hnext : Ready { s with
          inner := { s.inner with signs := op :: s.inner.signs }, phase := .operand }
          unaryLevel :=
        { awaits := trivial
          floor_le := hready.floor_le
          signs := fun h => absurd h (Nat.lt_irrefl _)
          looser := hready.looser }
      obtain ⟨last, operand', hmoves, hsame, hoperand, hsettle⟩ := ih hnext
      exact ⟨last, operand', .cons htransition hmoves,
        ⟨hsame.goal, hsame.statements, hsame.target, hsame.outer⟩, hoperand, hsettle⟩
  | literal hliteral =>
      have hmoves := Moves.single (Transition.literal hready.awaits hliteral)
      exact takes_atom hmoves rfl rfl rfl
  | name hname =>
      have hmoves := Moves.single (Transition.name hready.awaits hname)
      exact ⟨_, _, hmoves, ⟨rfl, rfl, rfl, rfl⟩, rfl, settle_operand _ _ (by decide)⟩
  | @emptyCall name opening closing hname hopening hclosing =>
      have hopen := moves_openCall hready.awaits hname hopening
      have hclose := Transition.closeEmptyCall (s := { s with
        outer := (s.inner, .call name []) :: s.outer, inner := {}, phase := .argument })
        rfl rfl hclosing
      exact takes_atom (hopen.append (.single hclose)) rfl rfl rfl
  | call hname hopening _ hcommas _ hclosing ihfirst ihmore =>
      have hopen := moves_openCall hready.awaits hname hopening
      obtain ⟨middle, operand, hmoves, hsame, hoperand, hwhole⟩ :=
        (ihfirst (ready_inside s _ s.outer .argument trivial)).whole rfl
      obtain ⟨last, arguments, operand', hmoves', hgoal, hstatements, htarget, houter, hoperand',
        hrow⟩ := moves_arguments hcommas (fun item member s hinside => ihmore item member hinside)
          hsame.outer hoperand hwhole
      have hclose := Transition.closeCall hoperand' houter hclosing
      rw [hrow] at hclose
      have hall := hopen.append ((hmoves.append hmoves').append (.single hclose))
      exact takes_atom hall (hgoal.trans hsame.goal) (hstatements.trans hsame.statements)
        (htarget.trans hsame.target)
  | group hopening _ hclosing ih =>
      have hopen := Transition.openGroup hready.awaits hopening
      obtain ⟨last, operand, hmoves, hsame, hoperand, hwhole⟩ :=
        (ih (ready_inside s (s.inner, .group) s.outer .operand trivial)).whole rfl
      have hclose := Transition.closeGroup hoperand hsame.outer hclosing
      rw [hwhole] at hclose
      exact takes_atom (.cons hopen (hmoves.append (.single hclose))) hsame.goal hsame.statements
        hsame.target

/-- Outside all brackets of a statement any expression may come next. -/
theorem ready_outside {s : State} (hgoal : ∀ level, s.goal ≠ .expression level)
    (houter : s.outer = []) (hinner : s.inner = {}) (hawaits : s.Awaits) : s.Ready 1 where
  awaits := hawaits
  floor_le := Nat.le_of_eq (floor_of_goal houter hgoal)
  signs := fun _ => by rw [hinner]
  looser := by simp [hinner]

/-- A statement may come next. -/
structure Fresh (s : State) : Prop where
  phase : s.phase = .start
  goal : ∀ level, s.goal ≠ .expression level
  target : s.target = none
  outer : s.outer = []
  inner : s.inner = {}

theorem Fresh.ready {s : State} (h : s.Fresh) : s.Ready 1 :=
  ready_outside h.goal h.outer h.inner (by simp [Awaits, h.phase])

/-- Behind the target of an assignment its operator is taken, and then the value may come. -/
theorem transition_of_target {ts : List Token} {target : Tree} {op : Token} (h : Target ts target)
    (hkind : op.kind.isAssignment = true) {s : State} (hfresh : s.Fresh) :
    ∃ middle next, Moves s ts middle ∧ Transition middle op next ∧ next.goal = s.goal ∧
      next.statements = s.statements ∧ next.target = some (op, target) ∧ next.outer = [] ∧
      next.inner = {} ∧ next.Ready 1 := by
  obtain ⟨hexpression, hlabel⟩ := h.expression
  obtain ⟨middle, operand, hmoves, hsame, hoperand, hwhole⟩ :=
    (takes_of_expression (hexpression.loosen (by decide)) hfresh.ready).whole hfresh.inner
  have hgoal : ∀ level, middle.goal ≠ .expression level := by
    rw [hsame.goal]
    exact hfresh.goal
  have houter : middle.outer = [] := hsame.outer.trans hfresh.outer
  have hassign := Transition.assign hoperand houter hgoal hkind
    (hsame.target.trans hfresh.target) (by rw [hwhole]; exact hlabel)
  rw [hwhole] at hassign
  exact ⟨middle, _, hmoves, hassign, hsame.goal, hsame.statements, rfl, houter, rfl,
    ready_outside hgoal houter rfl trivial⟩

/-- Between two statements of a program the next one may come. -/
theorem fresh_statement (statements : List Tree) :
    Fresh { goal := .program, statements, phase := .start } :=
  ⟨rfl, by simp, rfl, rfl, rfl⟩

/-- Every statement is taken where it may stand, and then only waits to be ended. -/
theorem moves_of_statement {ts : List Token} {tree : Tree} (h : Statement ts tree) {s : State}
    (hfresh : s.Fresh) :
    ∃ last operand, Moves s ts last ∧ last.goal = s.goal ∧ last.statements = s.statements ∧
      last.outer = [] ∧ last.operand? = some operand ∧
      last.statementOf (last.whole operand) = tree := by
  cases h with
  | expression _ hexpression =>
      obtain ⟨last, operand, hmoves, hsame, hoperand, hwhole⟩ :=
        (takes_of_expression hexpression hfresh.ready).whole hfresh.inner
      refine ⟨last, operand, hmoves, hsame.goal, hsame.statements,
        hsame.outer.trans hfresh.outer, hoperand, ?_⟩
      rw [hwhole, statementOf, hsame.target, hfresh.target]
  | @assignment op ts us target value htarget hkind hvalue =>
      obtain ⟨middle, next, hmoves, hassign, hgoal, hstatements, hassigned, houter, hinner,
        hready⟩ := transition_of_target htarget hkind hfresh
      obtain ⟨last, operand, hmoves', hsame, hoperand, hwhole⟩ :=
        (takes_of_expression hvalue hready).whole hinner
      refine ⟨last, operand, hmoves.append (.cons hassign hmoves'), hsame.goal.trans hgoal,
        hsame.statements.trans hstatements, hsame.outer.trans houter, hoperand, ?_⟩
      rw [hwhole, statementOf, hsame.target, hassigned]

/-- A statement and the semicolon behind it leave a program where it may go on. -/
theorem moves_semicolon {ts : List Token} {tree : Tree} {closing : Token} {statements : List Tree}
    (h : Statement ts tree) (hclosing : closing.kind = .symbol .semicolon) :
    Moves { goal := .program, statements, phase := .start } (ts ++ [closing])
      { goal := .program, statements := tree :: statements, phase := .start } := by
  obtain ⟨last, operand, hmoves, hgoal, hstatements, houter, hoperand, hstatement⟩ :=
    moves_of_statement h (fresh_statement statements)
  have hend := Transition.semicolon hoperand houter hgoal hclosing
  rw [hstatement, hstatements] at hend
  exact hmoves.append (.single hend)

/-- All statements of a row but the last are taken with their semicolons. -/
theorem moves_statements {first : List Token} {tree : Tree} {more : List Item}
    {statements : List Tree} (hfirst : Statement first tree)
    (hsemicolons : ∀ item ∈ more, item.separator.kind = .symbol .semicolon)
    (hitems : ∀ item ∈ more, Statement item.tokens item.tree) :
    ∃ front back last done, rowTokens first more = front ++ back ∧ Statement back last ∧
      Moves { goal := .program, statements, phase := .start } front
        { goal := .program, statements := done, phase := .start } ∧
      (last :: done).reverse = statements.reverse ++ rowTrees tree more ∧
      (more ≠ [] → done ≠ []) := by
  induction more generalizing first tree statements with
  | nil =>
      refine ⟨[], first, tree, statements, by simp [rowTokens], hfirst, .nil, ?_, by simp⟩
      rw [List.reverse_cons]
      rfl
  | cons item more ih =>
      obtain ⟨hsemicolon, hsemicolons⟩ := List.forall_mem_cons.mp hsemicolons
      obtain ⟨hitem, hitems⟩ := List.forall_mem_cons.mp hitems
      obtain ⟨front, back, last, done, htokens, hlast, hmoves, hrow, _⟩ :=
        @ih _ _ (tree :: statements) hitem hsemicolons hitems
      refine ⟨first ++ [item.separator] ++ front, back, last, done, ?_, hlast,
        (moves_semicolon hfirst hsemicolon).append hmoves, ?_, ?_⟩
      · rw [List.append_assoc, ← htokens]
        simp [rowTokens]
      · rw [hrow, List.reverse_cons, List.append_assoc]
        rfl
      · rintro _ rfl
        have hlength := congrArg List.length hrow
        simp [rowTrees] at hlength
        omega

/-- Statements that all end with a semicolon leave a program where it may go on. -/
theorem moves_openRow {statements : List Tree} {ts : List Token}
    (h : OpenRow (.symbol .semicolon) Statement statements ts) :
    Moves (initial .program) ts { goal := .program, statements, phase := .start } := by
  cases h with
  | empty => exact .nil
  | items hfirst hsemicolons hitems hclosing =>
      obtain ⟨front, back, final, done, htokens, hfinal, hmoves, hrow, _⟩ :=
        @moves_statements _ _ _ [] hfirst hsemicolons hitems
      rw [List.reverse_nil, List.nil_append] at hrow
      rw [htokens, List.append_assoc, ← hrow, List.reverse_reverse]
      exact hmoves.append (moves_semicolon hfinal hclosing)

theorem finish_single {s : State} {operand tree : Tree} (houter : s.outer = [])
    (hstatements : s.statements = []) (hoperand : s.operand? = some operand)
    (hstatement : s.statementOf (s.whole operand) = tree) : s.finish = .ok tree := by
  rw [finish_of_operand hoperand, finishWith, houter, hstatements, ← hstatement]
  rfl

theorem finish_block {s : State} {operand tree : Tree} (houter : s.outer = [])
    (hstatements : s.statements ≠ []) (hoperand : s.operand? = some operand)
    (hstatement : s.statementOf (s.whole operand) = tree) :
    s.finish = .ok (.block (tree :: s.statements).reverse) := by
  have hnonempty : s.statements.isEmpty = false := by simpa using hstatements
  rw [finish_of_operand hoperand, finishWith, houter, hnonempty, ← hstatement]
  rfl

theorem finishes_program {ts : List Token} {tree : Tree} (h : Program ts tree) :
    ∃ last, Moves (initial .program) ts last ∧ last.finish = .ok tree := by
  cases h with
  | single hstatement =>
      obtain ⟨last, operand, hmoves, _, hstatements, houter, hoperand, htree⟩ :=
        moves_of_statement (s := initial .program) hstatement
          ⟨rfl, by simp [initial], rfl, rfl, rfl⟩
      exact ⟨last, hmoves, finish_single houter hstatements hoperand htree⟩
  | row hfirst hmore hsemicolons hitems =>
      obtain ⟨front, back, final, done, htokens, hfinal, hmoves, hrow, hdone⟩ :=
        @moves_statements _ _ _ [] hfirst hsemicolons hitems
      obtain ⟨last, operand, hmoves', _, hstatements, houter, hoperand, htree⟩ :=
        moves_of_statement hfinal (fresh_statement done)
      have hnonempty : last.statements ≠ [] := by
        rw [hstatements]
        exact hdone hmore
      refine ⟨last, by rw [htokens]; exact hmoves.append hmoves', ?_⟩
      rw [finish_block houter hnonempty hoperand htree, hstatements, hrow]
      rfl
  | closedRow hfirst hsemicolons hitems hclosing =>
      refine ⟨_, moves_openRow (.items hfirst hsemicolons hitems hclosing), ?_⟩
      simp [finish, rowTrees]

/-- Tokens that the grammar derives are all taken, and the input may end behind them. -/
theorem finishes_of_derives {goal : Goal} {ts : List Token} {tree : Tree}
    (h : Derives goal ts tree) :
    ∃ last, Moves (initial goal) ts last ∧ last.finish = .ok tree := by
  cases goal with
  | program => exact finishes_program h
  | statement =>
      obtain ⟨last, operand, hmoves, _, hstatements, houter, hoperand, htree⟩ :=
        moves_of_statement (s := initial .statement) h ⟨rfl, by simp [initial], rfl, rfl, rfl⟩
      exact ⟨last, hmoves, finish_single houter hstatements hoperand htree⟩
  | expression level =>
      have hready : (initial (.expression level)).Ready level :=
        ⟨trivial, Nat.le_refl _, fun _ => rfl, by simp [initial]⟩
      obtain ⟨last, operand, hmoves, hsame, hoperand, hwhole⟩ :=
        (takes_of_expression h hready).whole rfl
      have hstatement : last.statementOf (last.whole operand) = tree := by
        rw [statementOf, hsame.target, hwhole]
        rfl
      exact ⟨last, hmoves, finish_single hsame.outer hsame.statements hoperand hstatement⟩

/-- Derived tokens are parsed to their tree and all taken, unless they nest too deeply. -/
theorem run_of_derives {goal : Goal} {ts : List Token} {tree : Tree} (h : Derives goal ts tree)
    (limit : Nat) :
    (initial goal).run limit ts = (.ok tree, []) ∨
      ((initial goal).run limit ts).1 = .error .tooDeep := by
  obtain ⟨last, hmoves, hfinish⟩ := finishes_of_derives h
  have hrun := hmoves.run limit []
  rw [List.append_nil, run, hfinish] at hrun
  exact hrun

end State

theorem run_initial_ne_tooDeep (goal : Goal) {ts : List Token} {limit : Nat}
    (hlimit : 18 * ts.length ≤ limit) :
    ((State.initial goal).run limit ts).1 ≠ .error .tooDeep := by
  have hdepth : (State.initial goal).depth = 0 := by cases goal <;> rfl
  exact State.run_ne_tooDeep (by omega)

/-- The grammar is unambiguous, for every goal. -/
theorem derives_unique {goal : Goal} {ts : List Token} {tree other : Tree}
    (h : Derives goal ts tree) (h' : Derives goal ts other) : tree = other := by
  have hdepth := run_initial_ne_tooDeep goal (Nat.le_refl (18 * ts.length))
  have hrun := (State.run_of_derives h _).resolve_right hdepth
  have hrun' := (State.run_of_derives h' _).resolve_right hdepth
  rw [hrun] at hrun'
  simpa using hrun'

/-- Parsing takes all tokens and answers a tree exactly if the grammar derives it from them. -/
theorem parse_eq_iff {p : Parser} {goal : Goal} {limits : Limits} {tree : Tree}
    (hlevel : goal.level ≤ atomLevel) (hdepth : (p.parse goal limits).1 ≠ .error .tooDeep) :
    p.parse goal limits = (.ok tree, { p with tokens := [] }) ↔ Derives goal p.tokens tree := by
  constructor
  · intro hparse
    have hrun : (State.initial goal).run limits.nesting p.tokens = (.ok tree, []) := by
      simpa [parse, Prod.ext_iff] using hparse
    obtain ⟨front, htokens, hderives, _⟩ := State.derives_of_run hlevel hrun
    rwa [htokens, List.append_nil]
  · intro hderives
    have hrun := (State.run_of_derives hderives limits.nesting).resolve_right hdepth
    rw [parse, hrun]

/-- A program that is parsed has no tokens left, so that all of them derive it. -/
theorem program_of_parse {p : Parser} {limits : Limits} {tree : Tree}
    (h : (p.parse .program limits).1 = .ok tree) : Program p.tokens tree := by
  have hrun : (State.initial .program).run limits.nesting p.tokens =
      (.ok tree, ((State.initial .program).run limits.nesting p.tokens).2) :=
    Prod.ext h rfl
  obtain ⟨front, htokens, hderives, hrest⟩ := State.derives_of_run (by decide) hrun
  rw [hrest rfl, List.append_nil] at htokens
  rw [htokens]
  exact hderives

/-- The parser decides the grammar. Nesting that goes too deep apart, which it never does with an
allowance of eighteen a token, a program is parsed to a tree exactly if the grammar derives that
tree, and each other goal takes all tokens exactly if they derive it. The tree is a block exactly if
a semicolon occurs, no other tree is derived, and a flaw is never parsed. -/
theorem parse_iff_derives (p : Parser) (limits : Limits) :
    ((p.parse .program limits).1 ≠ .error .tooDeep →
      ∀ tree, (p.parse .program limits).1 = .ok tree ↔ Program p.tokens tree) ∧
    (∀ goal, goal.level ≤ atomLevel → (p.parse goal limits).1 ≠ .error .tooDeep →
      ∀ tree, p.parse goal limits = (.ok tree, { p with tokens := [] }) ↔
        Derives goal p.tokens tree) ∧
    (∀ goal, 18 * p.tokens.length ≤ limits.nesting → (p.parse goal limits).1 ≠ .error .tooDeep) ∧
    (∀ tree, Program p.tokens tree →
      (tree.label? = some .block ↔ ∃ t ∈ p.tokens, t.kind = .symbol .semicolon)) ∧
    (∀ goal tree other, Derives goal p.tokens tree → Derives goal p.tokens other →
      tree = other) ∧
    ((∃ t ∈ p.tokens, t.kind.isFlaw = true) →
      (∀ tree, (p.parse .program limits).1 ≠ .ok tree) ∧
      ∀ goal tree, ¬ Derives goal p.tokens tree) := by
  have hflawless (hflaw : ∃ t ∈ p.tokens, t.kind.isFlaw = true) (goal : Goal) (tree : Tree) :
      ¬ Derives goal p.tokens tree := by
    obtain ⟨t, member, hkind⟩ := hflaw
    intro hderives
    rw [hderives.not_flaw t member] at hkind
    cases hkind
  refine ⟨fun hdepth tree => ⟨program_of_parse, fun h => ?_⟩,
    fun goal hlevel hdepth tree => parse_eq_iff hlevel hdepth,
    fun goal hlimit => run_initial_ne_tooDeep goal hlimit, fun tree h => h.block_iff,
    fun goal tree other h h' => derives_unique h h',
    fun hflaw => ⟨fun tree h => ?_, hflawless hflaw⟩⟩
  · rw [(@parse_eq_iff p .program limits tree (by decide) hdepth).mpr h]
  · exact hflawless hflaw .program tree (program_of_parse h)

/-- The tokens of `f(void);` are parsed, and so derived, as a block. -/
theorem parse_iff_derives_call :
    let token (kind : Kind) : Token := ⟨kind, .text "", ⟨0, 0, by decide⟩, 1, 1⟩
    let p : Parser := ⟨"", none, [token .identifier, token (.symbol .leftParen),
      token (.keyword .voidWord), token (.symbol .rightParen), token (.symbol .semicolon)]⟩
    ∃ tree, (p.parse .program {}).1 = .ok tree ∧ Program p.tokens tree := by
  intro token p
  have hdepth : (p.parse .program {}).1 ≠ .error .tooDeep :=
    (parse_iff_derives p {}).2.2.1 .program (by decide)
  have hparse : (p.parse .program {}).1 = .ok _ := rfl
  exact ⟨_, hparse, ((parse_iff_derives p {}).1 hdepth _).mp hparse⟩

end Glass.Parser

namespace Glass

theorem parseProgram_of_run {source : String} {filename : Option String} {limits : Limits}
    {result : Except Parser.Fault Tree}
    (h : ((Parser.State.initial .program).run limits.nesting (tokenize source)).1 = result) :
    parseProgram source filename limits =
      result.mapError (Parser.ofText source filename).failure := by
  rw [← h]
  rfl

end Glass
