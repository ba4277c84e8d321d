import Glass.Proofs.MachineRun

/-!
What the parser accepts is derived by the grammar. A state of the machine stands for the tokens read
so far: `Reads` cuts them into finished statements, the target of an assignment, open brackets with
what waits in front of them, and the operand just read, each with its own derivation. Every
transition adds its token to what the state reads, and a state in which the machine stops reads a
derivation of the goal.
-/

namespace Glass.Grammar

/-- The tokens of a row that is not finished, ending with a separator; its trees stand last first,
and at the start there are none. -/
inductive OpenRow (separator : Kind) (derives : List Token → Tree → Prop) :
    List Tree → List Token → Prop where
  | empty : OpenRow separator derives [] []
  | items {ts : List Token} {first : Tree} {more : List Item} {closing : Token} :
      derives ts first → (∀ item ∈ more, item.separator.kind = separator) →
      (∀ item ∈ more, derives item.tokens item.tree) → closing.kind = separator →
      OpenRow separator derives (rowTrees first more).reverse (rowTokens ts more ++ [closing])

theorem rowTokens_cons (ts : List Token) (item : Item) (more : List Item) :
    rowTokens ts (item :: more) = ts ++ item.separator :: rowTokens item.tokens more := by
  simp [rowTokens]

theorem rowTokens_append (first : List Token) (more : List Item) (item : Item) :
    rowTokens first (more ++ [item]) = rowTokens first more ++ item.separator :: item.tokens := by
  simp [rowTokens]

theorem rowTrees_append (first : Tree) (more : List Item) (item : Item) :
    rowTrees first (more ++ [item]) = rowTrees first more ++ [item.tree] := by
  simp [rowTrees]

theorem OpenRow.eq_nil {separator : Kind} {derives : List Token → Tree → Prop} {ts : List Token}
    (h : OpenRow separator derives [] ts) : ts = [] := by
  generalize htrees : ([] : List Tree) = trees at h
  cases h with
  | empty => rfl
  | items => simp [rowTrees] at htrees

/-- A last item finishes a row. -/
theorem OpenRow.finish {separator : Kind} {derives : List Token → Tree → Prop} {trees : List Tree}
    {ts us : List Token} {tree : Tree} (h : OpenRow separator derives trees ts)
    (hitem : derives us tree) :
    ∃ vs first more, derives vs first ∧ (∀ item ∈ more, item.separator.kind = separator) ∧
      (∀ item ∈ more, derives item.tokens item.tree) ∧ ts ++ us = rowTokens vs more ∧
      (tree :: trees).reverse = rowTrees first more ∧ (trees ≠ [] → more ≠ []) := by
  cases h with
  | empty => exact ⟨us, tree, [], hitem, by simp, by simp, by simp [rowTokens], rfl, by simp⟩
  | @items vs first more closing hfirst hseparators hitems hclosing =>
      refine ⟨vs, first, more ++ [⟨closing, us, tree⟩], hfirst, ?_, ?_, ?_, ?_, by simp⟩
      · exact List.forall_mem_append.mpr ⟨hseparators, List.forall_mem_singleton.mpr hclosing⟩
      · exact List.forall_mem_append.mpr ⟨hitems, List.forall_mem_singleton.mpr hitem⟩
      · rw [rowTokens_append, List.append_assoc, List.singleton_append]
      · rw [rowTrees_append, List.reverse_cons, List.reverse_reverse]

/-- A further item and separator leave a row open. -/
theorem OpenRow.extend {separator : Kind} {derives : List Token → Tree → Prop} {trees : List Tree}
    {ts us : List Token} {tree : Tree} {closing : Token} (h : OpenRow separator derives trees ts)
    (hitem : derives us tree) (hclosing : closing.kind = separator) :
    OpenRow separator derives (tree :: trees) (ts ++ us ++ [closing]) := by
  obtain ⟨vs, first, more, hfirst, hseparators, hitems, htokens, htrees, _⟩ := h.finish hitem
  rw [htokens, ← List.reverse_reverse (tree :: trees), htrees]
  exact .items hfirst hseparators hitems hclosing

end Glass.Grammar

namespace Glass.Parser

open Glass.Grammar

/-- The tokens of the operations that wait, each with its left operand. They bind more and more
tightly inwards. -/
inductive OperationsRead (floor : Nat) : List Operation → List Token → Prop where
  | nil : OperationsRead floor [] []
  | cons {o : Operation} {operations : List Operation} {ts us : List Token} :
      OperationsRead floor operations ts → Expression o.op.level us o.left →
      BinaryOp.ofKind? o.token.kind = some o.op → floor ≤ o.op.level →
      (∀ looser ∈ operations.head?, looser.op.level < o.op.level) →
      OperationsRead floor (o :: operations) (ts ++ (us ++ [o.token]))

/-- The tokens of what waits for an operand. -/
structure PendingRead (floor : Nat) (pending : Pending) (ts : List Token) : Prop where
  intro ::
  operations : ∃ us, OperationsRead floor pending.operations us ∧
    ts = us ++ pending.signs.reverse
  signs : ∀ sign ∈ pending.signs, sign.kind ∈ prefixes
  floor_le : pending.signs ≠ [] → floor ≤ unaryLevel

/-- The tokens of an open bracket. -/
inductive BracketRead : Bracket → List Token → Prop where
  | group {opening : Token} : opening.kind = .symbol .leftParen → BracketRead .group [opening]
  | call {name opening : Token} {arguments : List Tree} {ts : List Token} :
      name.kind = .identifier → opening.kind = .symbol .leftParen →
      OpenRow (.symbol .comma) (Expression 1) arguments ts →
      BracketRead (.call name arguments) (name :: opening :: ts)

/-- The level of the operators that are taken inside the innermost of the open brackets. -/
def floorWithin (level : Nat) (outer : List (Pending × Bracket)) : Nat :=
  if outer.isEmpty then level else 1

/-- The tokens of the open brackets, and of what waits in front of each. -/
inductive OuterRead (level : Nat) : List (Pending × Bracket) → List Token → Prop where
  | nil : OuterRead level [] []
  | cons {pending : Pending} {bracket : Bracket} {outer : List (Pending × Bracket)}
      {ts us vs : List Token} :
      OuterRead level outer ts → PendingRead (floorWithin level outer) pending us →
      BracketRead bracket vs → OuterRead level ((pending, bracket) :: outer) (ts ++ (us ++ vs))

/-- The tokens of the target of an assignment, with its operator. -/
inductive TargetRead : Option (Token × Tree) → List Token → Prop where
  | none : TargetRead none []
  | some {op : Token} {tree : Tree} {ts : List Token} :
      Target ts tree → op.kind.isAssignment = true → TargetRead (some (op, tree)) (ts ++ [op])

theorem applySigns_read {signs ts : List Token} {tree : Tree}
    (hsigns : ∀ sign ∈ signs, sign.kind ∈ prefixes) (h : Expression unaryLevel ts tree) :
    Expression unaryLevel (signs.reverse ++ ts) (applySigns signs tree) := by
  induction signs generalizing ts tree with
  | nil => exact h
  | cons sign signs ih =>
      obtain ⟨hsign, hrest⟩ := List.forall_mem_cons.mp hsigns
      rw [List.reverse_cons, List.append_assoc]
      exact ih hrest (.signed hsign h)

/-- Settling operations turns their tokens, with those of the operand behind them, into one
expression that binds as tightly as asked and as the floor demands. -/
theorem OperationsRead.settle {floor bound : Nat} {operations : List Operation}
    {ts us : List Token} {tree : Tree} (h : OperationsRead floor operations ts)
    (hoperand : Expression bound us tree) (hfloor : floor ≤ bound)
    (hhead : ∀ looser ∈ operations.head?, looser.op.level < bound) (level : Nat)
    (hlevel : level ≤ bound) :
    ∃ front back, ts ++ us = front ++ back ∧
      OperationsRead floor (settle level operations tree).1 front ∧
      Expression (max floor level) back (settle level operations tree).2 ∧
      ∀ looser ∈ (Parser.settle level operations tree).1.head?, looser.op.level < level := by
  induction h generalizing bound us tree with
  | nil =>
      have hwhole := hoperand.loosen (Nat.max_le.mpr ⟨hfloor, hlevel⟩)
      exact ⟨[], us, rfl, .nil, hwhole, by simp [Parser.settle]⟩
  | @cons o operations ts vs hrest hleft hop hofloor hinner ih =>
      have hbound : o.op.level < bound := hhead o rfl
      unfold Parser.settle
      split
      · rename_i hle
        have happly : Expression o.op.level (vs ++ o.token :: us) (o.apply tree) :=
          .operation hleft (mem_operators_iff.mpr ⟨o.op, hop, rfl⟩) (hoperand.loosen hbound)
        obtain ⟨front, back, htokens, hread, hexpression, hlooser⟩ := ih happly hofloor hinner hle
        refine ⟨front, back, ?_, hread, hexpression, hlooser⟩
        rw [← htokens]
        simp
      · rename_i hlt
        refine ⟨_, us, rfl, .cons hrest hleft hop hofloor hinner,
          hoperand.loosen (Nat.max_le.mpr ⟨hfloor, hlevel⟩), ?_⟩
        intro looser hlooser
        cases hlooser
        omega

/-- Behind an operand, operations of every level can be settled. -/
theorem OperationsRead.settleOperand {floor : Nat} {operations : List Operation}
    {ts us : List Token} {tree : Tree} (h : OperationsRead floor operations ts)
    (hoperand : Expression (max floor unaryLevel) us tree) (level : Nat)
    (hlevel : level ≤ unaryLevel) :
    ∃ front back, ts ++ us = front ++ back ∧
      OperationsRead floor (Parser.settle level operations tree).1 front ∧
      Expression (max floor level) back (Parser.settle level operations tree).2 ∧
      ∀ looser ∈ (Parser.settle level operations tree).1.head?, looser.op.level < level := by
  refine h.settle hoperand (Nat.le_max_left _ _) ?_ level (by omega)
  intro looser _
  have hlooser := looser.op.level_lt_unaryLevel
  omega

theorem PendingRead.empty (floor : Nat) : PendingRead floor {} [] where
  operations := ⟨[], .nil, rfl⟩
  signs := by simp
  floor_le := by simp

theorem PendingRead.eq_nil {floor : Nat} {ts : List Token} (h : PendingRead floor {} ts) :
    ts = [] := by
  obtain ⟨⟨us, hoperations, rfl⟩, _, _⟩ := h
  cases hoperations
  rfl

/-- An atom, with the signs in front of it, is an operand. -/
theorem PendingRead.operand {floor : Nat} {pending : Pending} {ts us : List Token} {tree : Tree}
    (h : PendingRead floor pending ts) (hfloor : floor ≤ atomLevel)
    (hatom : Expression atomLevel us tree) :
    ∃ front back, ts ++ us = front ++ back ∧ OperationsRead floor pending.operations front ∧
      Expression (max floor unaryLevel) back (applySigns pending.signs tree) := by
  obtain ⟨⟨front, hoperations, rfl⟩, hsigns, hlevel⟩ := h
  refine ⟨front, pending.signs.reverse ++ us, by simp, hoperations, ?_⟩
  have hunary : unaryLevel ≤ atomLevel := by decide
  cases hempty : pending.signs with
  | nil => exact hatom.loosen (Nat.max_le.mpr ⟨hfloor, hunary⟩)
  | cons sign signs =>
      rw [Nat.max_eq_right (hlevel (by simp [hempty])), ← hempty]
      exact applySigns_read hsigns (hatom.loosen hunary)

/-- Only a program has several statements, and an expression assigns nothing. -/
inductive GoalRead (statements : List Tree) (target : Option (Token × Tree)) : Goal → Prop where
  | program : GoalRead statements target .program
  | statement : statements = [] → GoalRead statements target .statement
  | expression {level : Nat} : statements = [] → target = none → level ≤ atomLevel →
      GoalRead statements target (.expression level)

/-- The tokens of all that was read before the innermost bracket was opened. -/
inductive BaseRead (goal : Goal) (statements : List Tree) (target : Option (Token × Tree))
    (outer : List (Pending × Bracket)) : List Token → Prop where
  | intro {ts us vs : List Token} : GoalRead statements target goal →
      OpenRow (.symbol .semicolon) Statement statements ts → TargetRead target us →
      OuterRead goal.level outer vs → BaseRead goal statements target outer (ts ++ (us ++ vs))

section
variable {goal : Goal} {statements : List Tree} {target : Option (Token × Tree)}
  {outer : List (Pending × Bracket)}

theorem BaseRead.floor_le {ts : List Token} (h : BaseRead goal statements target outer ts) :
    floorWithin goal.level outer ≤ atomLevel := by
  obtain ⟨hgoal, _, _, _⟩ := h
  have hone : 1 ≤ atomLevel := by decide
  unfold floorWithin
  split
  · cases hgoal with
    | expression _ _ hlevel => exact hlevel
    | _ => exact hone
  · exact hone

theorem BaseRead.outside {ts : List Token} (h : BaseRead goal statements target [] ts) :
    ∃ us vs, ts = us ++ vs ∧ GoalRead statements target goal ∧
      OpenRow (.symbol .semicolon) Statement statements us ∧ TargetRead target vs := by
  obtain ⟨hgoal, hdone, htarget, houter⟩ := h
  cases houter
  exact ⟨_, _, by rw [List.append_nil], hgoal, hdone, htarget⟩

theorem BaseRead.push {pending : Pending} {bracket : Bracket} {ts us vs : List Token}
    (h : BaseRead goal statements target outer ts)
    (hpending : PendingRead (floorWithin goal.level outer) pending us)
    (hbracket : BracketRead bracket vs) :
    BaseRead goal statements target ((pending, bracket) :: outer) (ts ++ (us ++ vs)) := by
  obtain ⟨hgoal, hdone, htarget, houter⟩ := h
  simp only [List.append_assoc]
  exact .intro hgoal hdone htarget (.cons houter hpending hbracket)

theorem BaseRead.pop {pending : Pending} {bracket : Bracket} {ts : List Token}
    (h : BaseRead goal statements target ((pending, bracket) :: outer) ts) :
    ∃ front us vs, ts = front ++ (us ++ vs) ∧ BaseRead goal statements target outer front ∧
      PendingRead (floorWithin goal.level outer) pending us ∧ BracketRead bracket vs := by
  obtain ⟨hgoal, hdone, htarget, houter⟩ := h
  cases houter with
  | cons houter hpending hbracket =>
      refine ⟨_, _, _, ?_, .intro hgoal hdone htarget houter, hpending, hbracket⟩
      simp only [List.append_assoc]

end

namespace State

/-- The tokens of the operand just read, and what its phase demands of a state. -/
inductive PhaseRead (s : State) : Phase → List Token → Prop where
  | start : s.outer = [] → s.inner = {} → s.target = none → (∀ level, s.goal ≠ .expression level) →
      PhaseRead s .start []
  | operand : PhaseRead s .operand []
  | argument {saved : Pending} {name : Token} {outer : List (Pending × Bracket)} :
      s.outer = (saved, .call name []) :: outer → s.inner = {} → PhaseRead s .argument []
  | named {name : Token} : name.kind = .identifier → PhaseRead s (.named name) [name]
  | complete {tree : Tree} {ts : List Token} : s.inner.signs = [] →
      Expression (max s.floor unaryLevel) ts tree → PhaseRead s (.complete tree) ts

/-- The state has read the tokens. -/
inductive Reads (s : State) : List Token → Prop where
  | intro {base inner last : List Token} :
      BaseRead s.goal s.statements s.target s.outer base → PendingRead s.floor s.inner inner →
      PhaseRead s s.phase last → Reads s (base ++ (inner ++ last))

theorem Reads.awaiting {s : State} {ts : List Token} (h : Reads s ts) (hawaits : s.Awaits) :
    ∃ base inner, ts = base ++ inner ∧ BaseRead s.goal s.statements s.target s.outer base ∧
      PendingRead s.floor s.inner inner := by
  obtain ⟨hbase, hinner, hphase⟩ := h
  unfold Awaits at hawaits
  generalize s.phase = phase at hawaits hphase
  cases hphase with
  | start | operand | argument =>
      exact ⟨_, _, by rw [List.append_nil], hbase, hinner⟩
  | named | complete => exact hawaits.elim

theorem Reads.operand {s : State} {ts : List Token} {operand : Tree} (h : Reads s ts)
    (hoperand : s.operand? = some operand) :
    ∃ base inner last, ts = base ++ (inner ++ last) ∧
      BaseRead s.goal s.statements s.target s.outer base ∧
      OperationsRead s.floor s.inner.operations inner ∧
      Expression (max s.floor unaryLevel) last operand := by
  obtain ⟨hbase, hinner, hphase⟩ := h
  unfold operand? at hoperand
  generalize s.phase = phase at hoperand hphase
  cases hphase with
  | named hname =>
      cases hoperand
      obtain ⟨front, back, htokens, hoperations, hexpression⟩ :=
        hinner.operand hbase.floor_le (.name hname)
      exact ⟨_, front, back, by rw [htokens], hbase, hoperations, hexpression⟩
  | complete hsigns hexpression =>
      cases hoperand
      obtain ⟨⟨front, hoperations, rfl⟩, _, _⟩ := hinner
      exact ⟨_, front, _, by simp [hsigns], hbase, hoperations, hexpression⟩
  | _ => cases hoperand

theorem Reads.whole {s : State} {ts : List Token} {operand : Tree} (h : Reads s ts)
    (hoperand : s.operand? = some operand) :
    ∃ base last, ts = base ++ last ∧ BaseRead s.goal s.statements s.target s.outer base ∧
      Expression s.floor last (s.whole operand) := by
  obtain ⟨base, inner, last, rfl, hbase, hoperations, hexpression⟩ := h.operand hoperand
  obtain ⟨front, back, htokens, hsettled, hwhole, hlooser⟩ :=
    hoperations.settleOperand hexpression 0 (Nat.zero_le _)
  rw [Nat.max_eq_left (Nat.zero_le _)] at hwhole
  generalize (settle 0 s.inner.operations operand).1 = rest at hsettled hlooser
  cases hsettled with
  | nil => exact ⟨base, back, by rw [htokens, List.nil_append], hbase, hwhole⟩
  | cons => exact absurd (hlooser _ rfl) (Nat.not_lt_zero _)

theorem reads_finishOperand {s : State} {base inner last : List Token} {tree : Tree}
    (hbase : BaseRead s.goal s.statements s.target s.outer base)
    (hinner : PendingRead s.floor s.inner inner) (hatom : Expression atomLevel last tree) :
    Reads (s.finishOperand tree) (base ++ (inner ++ last)) := by
  obtain ⟨front, back, htokens, hoperations, hexpression⟩ := hinner.operand hbase.floor_le hatom
  rw [htokens]
  have hpending : PendingRead s.floor { s.inner with signs := [] } front :=
    ⟨⟨front, hoperations, by simp⟩, by simp, by simp⟩
  exact .intro hbase hpending (.complete rfl hexpression)

theorem floor_of_outer {s : State} {frame : Pending × Bracket} {outer : List (Pending × Bracket)}
    (houter : s.outer = frame :: outer) : s.floor = 1 := by
  simp [floor, houter]

theorem Reads.sign {s : State} {ts : List Token} {t : Token} (h : Reads s ts)
    (hawaits : s.Awaits) (hkind : t.kind ∈ prefixes) (hfloor : s.floor ≤ unaryLevel) :
    Reads { s with inner := { s.inner with signs := t :: s.inner.signs }, phase := .operand }
      (ts ++ [t]) := by
  obtain ⟨base, inner, rfl, hbase, ⟨us, hoperations, rfl⟩, hsigns, _⟩ := h.awaiting hawaits
  have hpending : PendingRead s.floor { s.inner with signs := t :: s.inner.signs }
      (us ++ (t :: s.inner.signs).reverse) :=
    ⟨⟨us, hoperations, rfl⟩, List.forall_mem_cons.mpr ⟨hkind, hsigns⟩, fun _ => hfloor⟩
  have hreads : Reads
      { s with inner := { s.inner with signs := t :: s.inner.signs }, phase := .operand } _ :=
    .intro hbase hpending .operand
  simpa using hreads

theorem reads_openBracket {s : State} {us : List Token} {bracket : Bracket} {phase : Phase}
    {base inner : List Token} (hbase : BaseRead s.goal s.statements s.target s.outer base)
    (hinner : PendingRead s.floor s.inner inner) (hbracket : BracketRead bracket us)
    (hphase : PhaseRead
      { s with outer := (s.inner, bracket) :: s.outer, inner := {}, phase } phase []) :
    Reads { s with outer := (s.inner, bracket) :: s.outer, inner := {}, phase }
      (base ++ (inner ++ us)) := by
  have hreads : Reads
      { s with outer := (s.inner, bracket) :: s.outer, inner := {}, phase } _ :=
    .intro (hbase.push hinner hbracket) (.empty _) hphase
  simpa using hreads

/-- Closing a bracket makes an operand of its tokens. -/
theorem reads_closeBracket {s : State} {saved : Pending} {bracket : Bracket}
    {outer : List (Pending × Bracket)} {base last : List Token} {tree : Tree}
    (hbase : BaseRead s.goal s.statements s.target ((saved, bracket) :: outer) base)
    (hatom : ∀ us, BracketRead bracket us → Expression atomLevel (us ++ last) tree) :
    Reads ({ s with outer, inner := saved }.finishOperand tree) (base ++ last) := by
  obtain ⟨front, us, vs, rfl, hfront, hpending, hbracket⟩ := hbase.pop
  have hreads := reads_finishOperand (s := { s with outer, inner := saved }) hfront hpending
    (hatom vs hbracket)
  simpa using hreads

theorem Reads.operator {s : State} {ts : List Token} {t : Token} {operand : Tree} {op : BinaryOp}
    (h : Reads s ts) (hoperand : s.operand? = some operand)
    (hop : BinaryOp.ofKind? t.kind = some op) (hfloor : s.floor ≤ op.level) :
    Reads
      { s with
        inner :=
          { operations :=
              ⟨op, t, (settle op.level s.inner.operations operand).2⟩ ::
                (settle op.level s.inner.operations operand).1 }
        phase := .operand }
      (ts ++ [t]) := by
  obtain ⟨base, inner, last, rfl, hbase, hoperations, hexpression⟩ := h.operand hoperand
  obtain ⟨front, back, htokens, hsettled, hleft, hlooser⟩ :=
    hoperations.settleOperand hexpression op.level (Nat.le_of_lt op.level_lt_unaryLevel)
  rw [Nat.max_eq_right hfloor] at hleft
  have hpending : PendingRead s.floor
      { operations :=
          ⟨op, t, (settle op.level s.inner.operations operand).2⟩ ::
            (settle op.level s.inner.operations operand).1 }
      (front ++ (back ++ [t])) :=
    ⟨⟨_, .cons hsettled hleft hop hfloor hlooser, by simp⟩, by simp, by simp⟩
  have hreads : Reads { s with inner := _, phase := .operand } _ :=
    .intro hbase hpending .operand
  rw [htokens]
  simpa using hreads

theorem statement_of_expression {ts : List Token} {tree : Tree} (h : Expression 1 ts tree) :
    Statement ts tree := by
  obtain ⟨first, rest, rfl, hfirst⟩ := h.head
  exact .expression (startsExpression_not_unsupported hfirst).1 h

theorem statementOf_read {s : State} {ts us : List Token} {value : Tree}
    (htarget : TargetRead s.target ts) (hvalue : Expression 1 us value) :
    Statement (ts ++ us) (s.statementOf value) := by
  unfold statementOf
  generalize s.target = target at htarget
  cases htarget with
  | none => exact statement_of_expression hvalue
  | some hname hop =>
      rw [List.append_assoc]
      exact .assignment hname hop hvalue

theorem floor_of_goal {s : State} (houter : s.outer = [])
    (hgoal : ∀ level, s.goal ≠ .expression level) : s.floor = 1 := by
  unfold floor
  cases h : s.goal with
  | expression level => exact absurd h (hgoal level)
  | _ => simp [houter, Goal.level]

/-- Outside all brackets the tokens from the last semicolon on form a statement. -/
theorem Reads.statement {s : State} {ts : List Token} {operand : Tree} (h : Reads s ts)
    (hoperand : s.operand? = some operand) (houter : s.outer = [])
    (hgoal : ∀ level, s.goal ≠ .expression level) :
    ∃ front back, ts = front ++ back ∧ GoalRead s.statements s.target s.goal ∧
      OpenRow (.symbol .semicolon) Statement s.statements front ∧
      Statement back (s.statementOf (s.whole operand)) := by
  obtain ⟨base, last, rfl, hbase, hwhole⟩ := h.whole hoperand
  rw [floor_of_goal houter hgoal] at hwhole
  rw [houter] at hbase
  obtain ⟨us, vs, rfl, hread, hdone, htarget⟩ := hbase.outside
  exact ⟨us, vs ++ last, by simp, hread, hdone, statementOf_read htarget hwhole⟩

/-- Outside all brackets a name that nothing is assigned to yet is all that its statement has. -/
theorem Reads.target {s : State} {ts : List Token} {operand : Tree} (h : Reads s ts)
    (hoperand : s.operand? = some operand) (houter : s.outer = []) (htarget : s.target = none)
    (hlabel : (s.whole operand).label? = some .identifier) :
    ∃ front back, ts = front ++ back ∧ GoalRead s.statements none s.goal ∧
      OpenRow (.symbol .semicolon) Statement s.statements front ∧
      Target back (s.whole operand) := by
  obtain ⟨base, last, rfl, hbase, hwhole⟩ := h.whole hoperand
  rw [houter, htarget] at hbase
  obtain ⟨us, vs, rfl, hread, hdone, hnone⟩ := hbase.outside
  cases hnone
  exact ⟨us, last, by rw [List.append_nil], hread, hdone, hwhole.target hlabel⟩

theorem Reads.assign {s : State} {ts : List Token} {t : Token} {operand : Tree} (h : Reads s ts)
    (hoperand : s.operand? = some operand) (houter : s.outer = [])
    (hgoal : ∀ level, s.goal ≠ .expression level) (hkind : t.kind.isAssignment = true)
    (htarget : s.target = none) (hlabel : (s.whole operand).label? = some .identifier) :
    Reads { s with target := some (t, s.whole operand), inner := {}, phase := .operand }
      (ts ++ [t]) := by
  obtain ⟨front, back, rfl, hread, hdone, hname⟩ := h.target hoperand houter htarget hlabel
  have hgoalRead : GoalRead s.statements (some (t, s.whole operand)) s.goal := by
    generalize s.goal = goal at hread hgoal
    cases hread with
    | program => exact .program
    | statement hempty => exact .statement hempty
    | @expression level => exact absurd rfl (hgoal level)
  have hbase' : BaseRead s.goal s.statements (some (t, s.whole operand)) s.outer _ :=
    .intro hgoalRead hdone (.some hname hkind) (by rw [houter]; exact .nil)
  have hreads : Reads
      { s with target := some (t, s.whole operand), inner := {}, phase := .operand } _ :=
    .intro hbase' (.empty _) .operand
  simpa using hreads

theorem Reads.semicolon {s : State} {ts : List Token} {t : Token} {operand : Tree} (h : Reads s ts)
    (hoperand : s.operand? = some operand) (houter : s.outer = []) (hgoal : s.goal = .program)
    (hkind : t.kind = .symbol .semicolon) :
    Reads
      { goal := .program, statements := s.statementOf (s.whole operand) :: s.statements,
        phase := .start }
      (ts ++ [t]) := by
  obtain ⟨front, back, rfl, _, hdone, hstatement⟩ :=
    h.statement hoperand houter (by rw [hgoal]; simp)
  have hbase : BaseRead .program (s.statementOf (s.whole operand) :: s.statements) none [] _ :=
    .intro .program (hdone.extend hstatement hkind) .none .nil
  have hreads : Reads
      { goal := .program, statements := s.statementOf (s.whole operand) :: s.statements,
        phase := .start } _ :=
    .intro hbase (.empty _) (.start rfl rfl rfl (by simp))
  simpa using hreads

/-- Behind the opening bracket of a call nothing of the call has been read. -/
theorem Reads.emptyCall {s : State} {ts : List Token} {saved : Pending} {name : Token}
    {arguments : List Tree} {outer : List (Pending × Bracket)} (h : Reads s ts)
    (hphase : s.phase = .argument) (houter : s.outer = (saved, .call name arguments) :: outer) :
    BaseRead s.goal s.statements s.target s.outer ts ∧ arguments = [] := by
  obtain ⟨hbase, hinner, hread⟩ := h
  rw [hphase] at hread
  cases hread with
  | argument hcall hempty =>
      rw [houter] at hcall
      simp only [List.cons.injEq, Prod.mk.injEq, Bracket.call.injEq] at hcall
      rw [hempty] at hinner
      rw [hinner.eq_nil, List.append_nil, List.append_nil]
      exact ⟨hbase, hcall.1.2.2⟩

/-- Every token that is taken is added to what the state has read. -/
theorem Transition.reads {s next : State} {t : Token} {ts : List Token}
    (htransition : Transition s t next) (h : Reads s ts) : Reads next (ts ++ [t]) := by
  cases htransition with
  | sign hawaits hkind hfloor => exact h.sign hawaits hkind hfloor
  | literal hawaits hliteral =>
      obtain ⟨base, inner, rfl, hbase, hinner⟩ := h.awaiting hawaits
      rw [List.append_assoc]
      exact reads_finishOperand hbase hinner (.literal hliteral)
  | name hawaits hkind =>
      obtain ⟨base, inner, rfl, hbase, hinner⟩ := h.awaiting hawaits
      rw [List.append_assoc]
      exact .intro hbase hinner (.named hkind)
  | openGroup hawaits hkind =>
      obtain ⟨base, inner, rfl, hbase, hinner⟩ := h.awaiting hawaits
      rw [List.append_assoc]
      exact reads_openBracket hbase hinner (.group hkind) .operand
  | @openCall name hphase hkind =>
      obtain ⟨hbase, hinner, hread⟩ := h
      rw [hphase] at hread
      cases hread with
      | named hname =>
          rw [List.append_assoc, List.append_assoc]
          exact reads_openBracket hbase hinner (.call hname hkind .empty) (.argument rfl rfl)
  | closeEmptyCall hphase houter hkind =>
      obtain ⟨hbase, harguments⟩ := h.emptyCall hphase houter
      subst harguments
      rw [houter] at hbase
      apply reads_closeBracket hbase
      intro us hbracket
      cases hbracket with
      | call hname hopening hrow =>
          cases hrow.eq_nil
          exact .emptyCall hname hopening hkind
  | operator hoperand hop hfloor => exact h.operator hoperand hop hfloor
  | closeGroup hoperand houter hkind =>
      obtain ⟨base, last, rfl, hbase, hwhole⟩ := h.whole hoperand
      rw [floor_of_outer houter] at hwhole
      rw [houter] at hbase
      rw [List.append_assoc]
      apply reads_closeBracket hbase
      intro us hbracket
      cases hbracket with
      | group hopening => exact .group hopening hwhole hkind
  | comma hoperand houter hkind =>
      obtain ⟨base, last, rfl, hbase, hwhole⟩ := h.whole hoperand
      rw [floor_of_outer houter] at hwhole
      rw [houter] at hbase
      obtain ⟨front, us, vs, rfl, hfront, hpending, hbracket⟩ := hbase.pop
      cases hbracket with
      | call hname hopening hrow =>
          have hbase' := hfront.push hpending
            (.call hname hopening (hrow.extend hwhole hkind))
          have hreads : Reads { s with outer := _, inner := {}, phase := .operand } _ :=
            .intro hbase' (.empty _) .operand
          simpa using hreads
  | closeCall hoperand houter hkind =>
      obtain ⟨base, last, rfl, hbase, hwhole⟩ := h.whole hoperand
      rw [floor_of_outer houter] at hwhole
      rw [houter] at hbase
      rw [List.append_assoc]
      apply reads_closeBracket hbase
      intro us hbracket
      cases hbracket with
      | call hname hopening hrow =>
          obtain ⟨vs, first, more, hfirst, hcommas, hitems, htokens, htrees, _⟩ :=
            hrow.finish hwhole
          rw [htrees, List.cons_append, List.cons_append, ← List.append_assoc, htokens]
          exact .call hname hopening hfirst hcommas hitems hkind
  | assign hoperand houter hgoal hkind htarget hlabel =>
      exact h.assign hoperand houter hgoal hkind htarget hlabel
  | semicolon hoperand houter hgoal hkind => exact h.semicolon hoperand houter hgoal hkind

theorem Transition.goal_eq {s next : State} {t : Token} (h : Transition s t next) :
    next.goal = s.goal := by
  cases h with
  | semicolon _ _ hgoal _ => exact hgoal.symm
  | _ => rfl

theorem Moves.goal_eq {s last : State} {ts : List Token} (h : Moves s ts last) :
    last.goal = s.goal := by
  induction h with
  | nil => rfl
  | cons htransition _ ih => rw [ih, htransition.goal_eq]

theorem Moves.reads {s last : State} {ts us : List Token} (h : Moves s us last)
    (hreads : Reads s ts) : Reads last (ts ++ us) := by
  induction h generalizing ts with
  | nil => rwa [List.append_nil]
  | cons htransition _ ih =>
      rw [← List.singleton_append, ← List.append_assoc]
      exact ih (htransition.reads hreads)

theorem goal_initial (goal : Goal) : (initial goal).goal = goal := by
  cases goal <;> rfl

theorem reads_initial {goal : Goal} (hlevel : goal.level ≤ atomLevel) :
    Reads (initial goal) [] := by
  have hbase (hgoal : GoalRead [] none goal) : BaseRead goal [] none [] [] :=
    @BaseRead.intro goal [] none [] [] [] [] hgoal .empty .none .nil
  cases goal with
  | program =>
      exact @Reads.intro (initial .program) [] [] [] (hbase .program) (.empty _)
        (.start rfl rfl rfl (by simp [initial]))
  | statement =>
      exact @Reads.intro (initial .statement) [] [] [] (hbase (.statement rfl)) (.empty _)
        (.start rfl rfl rfl (by simp [initial]))
  | expression level =>
      exact @Reads.intro (initial (.expression level)) [] [] []
        (hbase (.expression rfl rfl hlevel)) (.empty _) .operand

/-- Outside all brackets an expression goal is met by what was read. -/
theorem Reads.expression {s : State} {ts : List Token} {operand : Tree} {level : Nat}
    (h : Reads s ts) (hoperand : s.operand? = some operand) (houter : s.outer = [])
    (hgoal : s.goal = .expression level) :
    Expression level ts (s.whole operand) ∧ s.statements = [] ∧ s.target = none := by
  obtain ⟨base, last, rfl, hbase, hwhole⟩ := h.whole hoperand
  have hfloor : s.floor = level := by simp [floor, houter, hgoal, Goal.level]
  rw [houter, hgoal] at hbase
  obtain ⟨us, vs, rfl, hread, hdone, htarget⟩ := hbase.outside
  cases hread with
  | expression hstatements hnone _ =>
      rw [hstatements] at hdone
      rw [hnone] at htarget
      cases htarget
      rw [hdone.eq_nil, ← hfloor]
      exact ⟨hwhole, hstatements, hnone⟩

theorem finish_of_operand {s : State} {operand : Tree} (hoperand : s.operand? = some operand) :
    s.finish = s.finishWith operand := by
  unfold operand? at hoperand
  unfold finish
  cases hphase : s.phase with
  | named | complete =>
      simp only [hphase, Option.some.injEq] at hoperand
      rw [← hoperand]
  | _ => simp [hphase] at hoperand

theorem Reads.finishWith {s : State} {ts : List Token} {operand tree : Tree} (h : Reads s ts)
    (hoperand : s.operand? = some operand) (hfinish : s.finishWith operand = .ok tree) :
    Derives s.goal ts tree := by
  unfold State.finishWith at hfinish
  cases houter : s.outer with
  | cons => simp [houter] at hfinish
  | nil =>
      simp only [houter, List.isEmpty_nil, Bool.not_true, Bool.false_eq_true, if_false] at hfinish
      change (if s.statements.isEmpty then Except.ok (s.statementOf (s.whole operand)) else
        .ok (.block (s.statementOf (s.whole operand) :: s.statements).reverse)) = _ at hfinish
      cases hgoal : s.goal with
      | expression level =>
          obtain ⟨hwhole, hstatements, htarget⟩ := h.expression hoperand houter hgoal
          simp only [hstatements, List.isEmpty_nil, if_true, statementOf, htarget,
            Except.ok.injEq] at hfinish
          rwa [← hfinish]
      | statement =>
          obtain ⟨front, back, rfl, hread, hdone, hstatement⟩ :=
            h.statement hoperand houter (by rw [hgoal]; nofun)
          rw [hgoal] at hread
          cases hread with
          | statement hstatements =>
              rw [hstatements] at hdone hfinish
              rw [hdone.eq_nil]
              cases hfinish
              exact hstatement
      | program =>
          obtain ⟨front, back, rfl, _, hdone, hstatement⟩ :=
            h.statement hoperand houter (by rw [hgoal]; nofun)
          obtain ⟨vs, first, more, hfirst, hsemicolons, hitems, htokens, htrees, hmore⟩ :=
            hdone.finish hstatement
          cases hstatements : s.statements with
          | nil =>
              rw [hstatements] at hdone hfinish
              rw [hdone.eq_nil]
              cases hfinish
              exact .single hstatement
          | cons =>
              have hne : s.statements ≠ [] := by simp [hstatements]
              rw [htrees] at hfinish
              simp only [hstatements, List.isEmpty_cons, Bool.false_eq_true, if_false,
                Except.ok.injEq] at hfinish
              rw [htokens, ← hfinish]
              exact .row hfirst (hmore hne) hsemicolons hitems

/-- Behind a semicolon a program is complete. -/
theorem Reads.start {s : State} {ts : List Token} (h : Reads s ts) (hphase : s.phase = .start)
    (hstatements : s.statements ≠ []) : Derives s.goal ts (.block s.statements.reverse) := by
  obtain ⟨hbase, hinner, hread⟩ := h
  rw [hphase] at hread
  cases hread with
  | start houter hempty htarget hgoal =>
      rw [houter, htarget] at hbase
      rw [hempty] at hinner
      obtain ⟨us, vs, rfl, hgoalRead, hdone, hnone⟩ := hbase.outside
      cases hnone
      rw [hinner.eq_nil]
      simp only [List.append_nil]
      generalize s.goal = goal at hgoalRead hgoal
      cases hgoalRead with
      | statement hnil => exact absurd hnil hstatements
      | @expression level => exact absurd rfl (hgoal level)
      | program =>
          generalize s.statements = statements at hdone hstatements
          cases hdone with
          | empty => exact absurd rfl hstatements
          | items hfirst hsemicolons hitems hclosing =>
              rw [List.reverse_reverse]
              exact .closedRow hfirst hsemicolons hitems hclosing

/-- Input that ends where it may is derived by the grammar. -/
theorem Reads.finish {s : State} {ts : List Token} {tree : Tree} (h : Reads s ts)
    (hfinish : s.finish = .ok tree) : Derives s.goal ts tree := by
  cases hphase : s.phase with
  | start =>
      simp only [State.finish, hphase] at hfinish
      split at hfinish
      · cases hfinish
      · rename_i hstatements
        cases hfinish
        exact h.start hphase (by simpa using hstatements)
  | operand => simp [State.finish, hphase] at hfinish
  | argument => simp [State.finish, hphase] at hfinish
  | named name =>
      have hoperand : s.operand? = some (applySigns s.inner.signs (.identifier name)) := by
        simp [operand?, hphase]
      exact h.finishWith hoperand (by rwa [← finish_of_operand hoperand])
  | complete operand =>
      have hoperand : s.operand? = some operand := by simp [operand?, hphase]
      exact h.finishWith hoperand (by rwa [← finish_of_operand hoperand])

/-- A goal that is reached before a token is derived by what was read, and is no program. -/
theorem Reads.accept {s : State} {ts : List Token} {t : Token} {tree : Tree} {limit : Nat}
    (h : Reads s ts) (hstep : s.step limit t = .accept tree) :
    Derives s.goal ts tree ∧ s.goal ≠ .program := by
  have houtcome := step_outcome limit s t
  rw [hstep] at houtcome
  cases houtcome with
  | acceptExpression hoperand houter hgoal =>
      rw [hgoal]
      exact ⟨(h.expression hoperand houter hgoal).1, by simp⟩
  | acceptStatement hoperand houter hgoal =>
      obtain ⟨front, back, rfl, hread, hdone, hstatement⟩ :=
        h.statement hoperand houter (by rw [hgoal]; simp)
      rw [hgoal] at hread ⊢
      cases hread with
      | statement hstatements =>
          rw [hstatements] at hdone
          rw [hdone.eq_nil]
          exact ⟨hstatement, by simp⟩

/-- What a run answers is derived by the tokens read before it and those it takes, and a program takes
them all. -/
theorem Reads.run {s : State} {limit : Nat} {ts us rest : List Token} {tree : Tree}
    (h : Reads s ts) (hrun : s.run limit us = (.ok tree, rest)) :
    ∃ front, us = front ++ rest ∧ Derives s.goal (ts ++ front) tree ∧
      (s.goal = .program → rest = []) := by
  obtain ⟨front, back, last, rfl, hshifts, hends⟩ := exists_shifts_ends limit s us
  have hreads : Reads last (ts ++ front) := hshifts.moves.reads h
  have hgoal : last.goal = s.goal := hshifts.moves.goal_eq
  rw [hrun] at hends
  generalize hresult : (Except.ok tree, rest) = result at hends
  cases hends with
  | finish =>
      simp only [Prod.mk.injEq] at hresult
      obtain ⟨hfinish, rfl⟩ := hresult
      exact ⟨front, rfl, hgoal ▸ hreads.finish hfinish.symm, fun _ => rfl⟩
  | accept hstep =>
      simp only [Prod.mk.injEq, Except.ok.injEq] at hresult
      obtain ⟨rfl, rfl⟩ := hresult
      obtain ⟨hderives, hprogram⟩ := hreads.accept hstep
      exact ⟨front, rfl, hgoal ▸ hderives, fun h => absurd (hgoal.trans h) hprogram⟩
  | reject => simp at hresult

theorem derives_of_run {goal : Goal} {limit : Nat} {ts rest : List Token} {tree : Tree}
    (hlevel : goal.level ≤ atomLevel) (hrun : (initial goal).run limit ts = (.ok tree, rest)) :
    ∃ front, ts = front ++ rest ∧ Derives goal front tree ∧ (goal = .program → rest = []) := by
  obtain ⟨front, htokens, hderives, hrest⟩ := (reads_initial hlevel).run hrun
  rw [goal_initial] at hderives hrest
  exact ⟨front, htokens, hderives, hrest⟩

end State

end Glass.Parser
