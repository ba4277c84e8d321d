import Glass.Proofs.Grammar

/-!
What the parsing machine can do with a token. `Transition` lists every way for a token to be taken,
and leaves the nesting allowance out; a step takes a token exactly if it is one of these and stays
within the allowance or does not nest deeper. Faults and acceptance are classified likewise, so that
later proofs never look into the machine again.
-/

namespace Glass.Parser.State

open Glass.Grammar

/-- The next token is the first one of an operand. -/
def Awaits (s : State) : Prop :=
  match s.phase with
  | .start | .operand | .argument => True
  | .named _ | .complete _ => False

/-- The operand that has been read, if the next token follows one. -/
def operand? (s : State) : Option Tree :=
  match s.phase with
  | .named name => some (applySigns s.inner.signs (.identifier name))
  | .complete tree => some tree
  | _ => none

/-- The expression inside the innermost bracket, if it ends with `operand`. -/
def whole (s : State) (operand : Tree) : Tree := (settle 0 s.inner.operations operand).2

/-- Every way for a token to be taken. -/
inductive Transition (s : State) (t : Token) : State → Prop where
  | sign : s.Awaits → t.kind ∈ prefixes → s.floor ≤ unaryLevel →
      Transition s t
        { s with inner := { s.inner with signs := t :: s.inner.signs }, phase := .operand }
  | literal {tree : Tree} : s.Awaits → Literal t tree → Transition s t (s.finishOperand tree)
  | name : s.Awaits → t.kind = .identifier → Transition s t { s with phase := .named t }
  | openGroup : s.Awaits → t.kind = .symbol .leftParen →
      Transition s t
        { s with outer := (s.inner, .group) :: s.outer, inner := {}, phase := .operand }
  | openCall {name : Token} : s.phase = .named name → t.kind = .symbol .leftParen →
      Transition s t
        { s with outer := (s.inner, .call name []) :: s.outer, inner := {}, phase := .argument }
  | closeEmptyCall {name : Token} {saved : Pending} {arguments : List Tree}
      {outer : List (Pending × Bracket)} :
      s.phase = .argument → s.outer = (saved, .call name arguments) :: outer →
      t.kind = .symbol .rightParen →
      Transition s t
        ({ s with outer, inner := saved }.finishOperand
          (.functionCall (.ofToken name) [] (.ofToken t)))
  | operator {operand : Tree} {op : BinaryOp} :
      s.operand? = some operand → BinaryOp.ofKind? t.kind = some op → s.floor ≤ op.level →
      Transition s t
        { s with
          inner :=
            { operations :=
                ⟨op, t, (settle op.level s.inner.operations operand).2⟩ ::
                  (settle op.level s.inner.operations operand).1 }
          phase := .operand }
  | closeGroup {operand : Tree} {saved : Pending} {outer : List (Pending × Bracket)} :
      s.operand? = some operand → s.outer = (saved, .group) :: outer →
      t.kind = .symbol .rightParen →
      Transition s t ({ s with outer, inner := saved }.finishOperand (s.whole operand))
  | comma {operand : Tree} {name : Token} {saved : Pending} {arguments : List Tree}
      {outer : List (Pending × Bracket)} :
      s.operand? = some operand → s.outer = (saved, .call name arguments) :: outer →
      t.kind = .symbol .comma →
      Transition s t
        { s with
          outer := (saved, .call name (s.whole operand :: arguments)) :: outer
          inner := {}
          phase := .operand }
  | closeCall {operand : Tree} {name : Token} {saved : Pending} {arguments : List Tree}
      {outer : List (Pending × Bracket)} :
      s.operand? = some operand → s.outer = (saved, .call name arguments) :: outer →
      t.kind = .symbol .rightParen →
      Transition s t
        ({ s with outer, inner := saved }.finishOperand
          (.functionCall (.ofToken name) (s.whole operand :: arguments).reverse (.ofToken t)))
  | assign {operand : Tree} :
      s.operand? = some operand → s.outer = [] → (∀ level, s.goal ≠ .expression level) →
      t.kind.isAssignment = true → s.target = none →
      (s.whole operand).label? = some .identifier →
      Transition s t
        { s with target := some (t, s.whole operand), inner := {}, phase := .operand }
  | semicolon {operand : Tree} :
      s.operand? = some operand → s.outer = [] → s.goal = .program →
      t.kind = .symbol .semicolon →
      Transition s t
        { goal := .program, statements := s.statementOf (s.whole operand) :: s.statements,
          phase := .start }

theorem depth_eq (s : State) :
    s.depth = s.inner.signs.length +
      s.outer.foldr (fun frame total => frame.1.signs.length + frame.2.cost + total) 0 := by
  have hfold (frames : List (Pending × Bracket)) (start : Nat) :
      frames.foldl (fun total frame => total + frame.1.signs.length + frame.2.cost) start =
      start + frames.foldr (fun frame total => frame.1.signs.length + frame.2.cost + total) 0 := by
    induction frames generalizing start with
    | nil => rfl
    | cons frame frames ih =>
        simp only [List.foldl_cons, List.foldr_cons]
        rw [ih]
        omega
  exact hfold s.outer s.inner.signs.length

/-- The nesting allowance lets the machine go on: it nests no deeper, or not too deep. -/
def Allowed (limit : Nat) (s next : State) : Prop :=
  next.depth ≤ s.depth ∨ next.depth ≤ limit

theorem startsExpression_not_unsupported {kind : Kind} (h : startsExpression kind) :
    kind.startsUnsupported = false ∧ kind ≠ .symbol .rightParen := by
  simp only [startsExpression, prefixes, List.mem_cons, List.not_mem_nil, or_false] at h
  rcases h with (rfl | rfl | rfl) | rfl | rfl | rfl | rfl | rfl | rfl | rfl <;> decide

theorem step_of_awaits {s : State} {t : Token} (limit : Nat) (hawaits : s.Awaits)
    (hkind : startsExpression t.kind) : s.step limit t = s.readOperand limit t := by
  obtain ⟨hsupported, hclosing⟩ := startsExpression_not_unsupported hkind
  unfold step
  cases hphase : s.phase with
  | start => simp [hsupported]
  | operand => rfl
  | argument =>
      dsimp only
      split
      · simp [hclosing]
      · rfl
  | named name => simp [Awaits, hphase] at hawaits
  | complete tree => simp [Awaits, hphase] at hawaits

theorem step_of_operand {s : State} {t : Token} {operand : Tree} (limit : Nat)
    (hoperand : s.operand? = some operand) (hkind : t.kind ≠ .symbol .leftParen) :
    s.step limit t = s.afterOperand operand t := by
  unfold step
  unfold operand? at hoperand
  cases hphase : s.phase with
  | named name =>
      simp only [hphase, Option.some.injEq] at hoperand
      subst hoperand
      simp only [hkind, if_false]
      rfl
  | complete tree =>
      simp only [hphase, Option.some.injEq] at hoperand
      subst hoperand
      rfl
  | _ => simp [hphase] at hoperand

/-- Everything that can come of a token. -/
inductive Outcome (limit : Nat) (s : State) (t : Token) : Move → Prop where
  | shift {next : State} : Transition s t next → Allowed limit s next →
      Outcome limit s t (.shift next)
  | acceptExpression {operand : Tree} {level : Nat} :
      s.operand? = some operand → s.outer = [] → s.goal = .expression level →
      Outcome limit s t (.accept (s.whole operand))
  | acceptStatement {operand : Tree} :
      s.operand? = some operand → s.outer = [] → s.goal = .statement →
      Outcome limit s t (.accept (s.statementOf (s.whole operand)))
  | tooDeep {next : State} : Transition s t next → limit < next.depth →
      Outcome limit s t (.reject .tooDeep true)
  | flawed : t.kind.isFlaw = true → Outcome limit s t (.reject (.flawed t) true)
  | unsupported : t.kind.startsUnsupported = true →
      Outcome limit s t (.reject (.unsupported t) true)
  | unexpected {expected : Option Kind} {taken : Bool} : t.kind.isFlaw = false →
      Outcome limit s t (.reject (.unexpected expected t) taken)

theorem deepen_outcome {limit : Nat} {s next : State} {t : Token}
    (h : Transition s t next) : Outcome limit s t (deepen limit next) := by
  unfold deepen
  split
  · exact .tooDeep h ‹_›
  · exact .shift h (Or.inr (Nat.le_of_not_lt ‹_›))

theorem depth_finishOperand_le (s : State) (operand : Tree) :
    (s.finishOperand operand).depth ≤ s.depth := by
  simp only [depth_eq, finishOperand]
  simp

theorem readOperand_outcome (limit : Nat) {s : State} (t : Token) (hawaits : s.Awaits) :
    Outcome limit s t (s.readOperand limit t) := by
  have hliteral {tree : Tree} (h : Literal t tree) :
      Outcome limit s t (.shift (s.finishOperand tree)) :=
    .shift (.literal hawaits h) (Or.inl (s.depth_finishOperand_le tree))
  unfold readOperand
  split
  · rename_i hsign
    simp only [Bool.and_eq_true, decide_eq_true_eq] at hsign
    exact deepen_outcome (.sign hawaits (mem_prefixes_iff.mpr hsign.1) hsign.2)
  · split
    · exact hliteral (.number ‹_›)
    · exact hliteral (.string ‹_›)
    · exact hliteral (.truth ‹_›)
    · exact hliteral (.falsity ‹_›)
    · exact hliteral (.void ‹_›)
    · exact .shift (.name hawaits ‹_›) (Or.inl (Nat.le_refl _))
    · exact deepen_outcome (.openGroup hawaits ‹_›)
    · rename_i flaw hkind
      exact .flawed (by rw [hkind]; rfl)
    · rename_i hflaw
      apply Outcome.unexpected
      unfold Kind.isFlaw
      split
      · exact absurd ‹_› (hflaw _)
      · rfl

theorem refuseUnclosed_outcome (limit : Nat) (s : State) (t : Token) :
    Outcome limit s t (refuseUnclosed t) := by
  unfold refuseUnclosed
  split
  · exact .flawed ‹_›
  · exact .unexpected (eq_false_of_ne_true ‹_›)

theorem depth_closeBracket_le {s : State} {saved : Pending} {bracket : Bracket}
    {outer : List (Pending × Bracket)} (houter : s.outer = (saved, bracket) :: outer)
    (operand : Tree) :
    ({ s with outer, inner := saved }.finishOperand operand).depth ≤ s.depth := by
  apply Nat.le_trans (depth_finishOperand_le _ _)
  simp only [depth_eq, houter, List.foldr_cons]
  omega

/-- An operator is left only where no bracket is open and the goal is an expression of a tighter
level. -/
theorem goal_of_level_lt_floor {s : State} {op : BinaryOp} (h : ¬ s.floor ≤ op.level) :
    s.outer = [] ∧ ∃ level, s.goal = .expression level := by
  have hlevel := op.level_pos
  unfold floor at h
  cases houter : s.outer with
  | nil =>
      refine ⟨rfl, ?_⟩
      cases hgoal : s.goal with
      | expression level => exact ⟨level, rfl⟩
      | _ => simp [houter, hgoal, Goal.level, hlevel] at h
  | cons frame outer => simp [houter, hlevel] at h

theorem afterStatement_outcome (limit : Nat) {s : State} {operand : Tree} (t : Token)
    (hoperand : s.operand? = some operand) (houter : s.outer = [])
    (hgoal : ∀ level, s.goal ≠ .expression level) :
    Outcome limit s t (s.afterStatement (s.statementOf (s.whole operand)) t) := by
  unfold afterStatement isProgram
  cases h : s.goal with
  | expression level => exact absurd h (hgoal level)
  | statement => exact .acceptStatement hoperand houter h
  | program =>
      simp only [beq_self_eq_true, Bool.not_true, Bool.false_eq_true, if_false]
      split
      · exact .shift (.semicolon hoperand houter h ‹_›) (Or.inl (by simp [depth_eq]))
      · split
        · exact .flawed ‹_›
        · exact .unexpected (eq_false_of_ne_true ‹_›)

theorem afterExpression_outcome (limit : Nat) {s : State} {operand : Tree} (t : Token)
    (hoperand : s.operand? = some operand) (houter : s.outer = []) :
    Outcome limit s t (s.afterExpression (s.whole operand) t) := by
  unfold afterExpression
  split
  · exact .acceptExpression hoperand houter ‹_›
  · rename_i hgoal
    split
    · rename_i hassign
      simp only [Bool.and_eq_true, Option.isNone_iff_eq_none] at hassign
      split
      · exact .shift (.assign hoperand houter hgoal hassign.1 hassign.2 ‹_›)
          (Or.inl (by simp [depth_eq, houter]))
      · exact .unexpected (isAssignment_not_operator hassign.1).2.2.1
    · exact afterStatement_outcome limit t hoperand houter hgoal

theorem afterOperand_outcome (limit : Nat) {s : State} {operand : Tree} (t : Token)
    (hoperand : s.operand? = some operand) :
    Outcome limit s t (s.afterOperand operand t) := by
  unfold afterOperand
  split
  · rename_i op hop
    split
    · exact .shift (.operator hoperand hop ‹_›) (Or.inl (by simp [depth_eq]))
    · obtain ⟨houter, level, hgoal⟩ := goal_of_level_lt_floor ‹_›
      exact .acceptExpression hoperand houter hgoal
  · split
    · exact afterExpression_outcome limit t hoperand ‹_›
    · rename_i saved outer houter
      split
      · exact .shift (.closeGroup hoperand houter ‹_›) (Or.inl (depth_closeBracket_le houter _))
      · exact refuseUnclosed_outcome limit s t
    · rename_i saved name arguments outer houter
      split
      · exact .shift (.comma hoperand houter ‹_›)
          (Or.inl (by simp [depth_eq, houter, Bracket.cost]))
      · split
        · exact .shift (.closeCall hoperand houter ‹_›) (Or.inl (depth_closeBracket_le houter _))
        · exact refuseUnclosed_outcome limit s t

/-- A step is one of the listed outcomes. -/
theorem step_outcome (limit : Nat) (s : State) (t : Token) :
    Outcome limit s t (s.step limit t) := by
  cases hphase : s.phase with
  | start =>
      have hawaits : s.Awaits := by simp [Awaits, hphase]
      simp only [step, hphase]
      split
      · exact .unsupported ‹_›
      · exact readOperand_outcome limit t hawaits
  | operand =>
      have hawaits : s.Awaits := by simp [Awaits, hphase]
      simp only [step, hphase]
      exact readOperand_outcome limit t hawaits
  | argument =>
      have hawaits : s.Awaits := by simp [Awaits, hphase]
      simp only [step, hphase]
      split
      · rename_i saved name arguments outer houter
        split
        · exact .shift (.closeEmptyCall hphase houter ‹_›) (Or.inl (depth_closeBracket_le houter _))
        · exact readOperand_outcome limit t hawaits
      · exact readOperand_outcome limit t hawaits
  | named name =>
      have hoperand : s.operand? = some (applySigns s.inner.signs (.identifier name)) := by
        simp [operand?, hphase]
      by_cases hopening : t.kind = .symbol .leftParen
      · simp only [step, hphase, hopening, if_true]
        exact deepen_outcome (.openCall hphase hopening)
      · rw [step_of_operand limit hoperand hopening]
        exact afterOperand_outcome limit t hoperand
  | complete operand =>
      have hoperand : s.operand? = some operand := by simp [operand?, hphase]
      simp only [step, hphase]
      exact afterOperand_outcome limit t hoperand

/-- The token is taken, or it opens more than the nesting allowance permits. -/
def Taken (limit : Nat) (s next : State) (move : Move) : Prop :=
  move = .shift next ∨ (move = .reject .tooDeep true ∧ ¬ Allowed limit s next)

theorem deepen_taken {s next : State} (limit : Nat) (hdeeper : s.depth < next.depth) :
    Taken limit s next (deepen limit next) := by
  unfold deepen
  split
  · refine Or.inr ⟨rfl, ?_⟩
    rintro (h | h) <;> omega
  · exact Or.inl rfl

theorem depth_openBracket (s : State) (bracket : Bracket) (phase : Phase) :
    { s with outer := (s.inner, bracket) :: s.outer, inner := {}, phase : State }.depth =
      s.depth + bracket.cost := by
  simp only [depth_eq, List.foldr_cons, List.length_nil]
  omega

theorem readOperand_literal (limit : Nat) (s : State) {t : Token} {tree : Tree}
    (h : Literal t tree) : s.readOperand limit t = .shift (s.finishOperand tree) := by
  cases h with
  | _ hkind => simp [readOperand, hkind, UnaryOp.ofKind?, UnaryOp.all, UnaryOp.kind]

/-- The nesting allowance apart, every transition is a step. -/
theorem Transition.taken {s next : State} {t : Token} (h : Transition s t next) (limit : Nat) :
    Taken limit s next (s.step limit t) := by
  cases h with
  | sign hawaits hkind hfloor =>
      rw [step_of_awaits limit hawaits (Or.inl hkind)]
      simp only [readOperand, mem_prefixes_iff.mp hkind, hfloor, decide_true, Bool.and_self,
        if_true]
      exact deepen_taken limit (by simp [depth_eq])
  | literal hawaits hliteral =>
      rw [step_of_awaits limit hawaits hliteral.starts]
      exact Or.inl (readOperand_literal limit s hliteral)
  | name hawaits hkind =>
      rw [step_of_awaits limit hawaits (by rw [hkind]; decide)]
      exact Or.inl (by simp [readOperand, hkind, UnaryOp.ofKind?, UnaryOp.all, UnaryOp.kind])
  | openGroup hawaits hkind =>
      rw [step_of_awaits limit hawaits (by rw [hkind]; decide)]
      simp only [readOperand, hkind, UnaryOp.ofKind?, UnaryOp.all, UnaryOp.kind]
      exact deepen_taken limit (by rw [depth_openBracket]; simp [Bracket.cost])
  | openCall hphase hkind =>
      simp only [State.step, hphase, hkind, if_true]
      exact deepen_taken limit (by rw [depth_openBracket]; simp [Bracket.cost])
  | closeEmptyCall hphase houter hkind =>
      simp only [State.step, hphase, houter, hkind, if_true]
      exact Or.inl rfl
  | operator hoperand hop hfloor =>
      have hkind : t.kind ≠ .symbol .leftParen := by
        intro hkind
        rw [hkind] at hop
        cases hop
      rw [step_of_operand limit hoperand hkind]
      exact Or.inl (by simp [afterOperand, hop, hfloor])
  | closeGroup hoperand houter hkind =>
      rw [step_of_operand limit hoperand (by rw [hkind]; decide)]
      simp only [afterOperand, houter, hkind, if_true]
      exact Or.inl rfl
  | comma hoperand houter hkind =>
      rw [step_of_operand limit hoperand (by rw [hkind]; decide)]
      simp only [afterOperand, houter, hkind, if_true]
      exact Or.inl rfl
  | closeCall hoperand houter hkind =>
      rw [step_of_operand limit hoperand (by rw [hkind]; decide)]
      simp only [afterOperand, houter, hkind, if_true]
      exact Or.inl rfl
  | assign hoperand houter hgoal hkind htarget hlabel =>
      obtain ⟨hop, hopening, _⟩ := isAssignment_not_operator hkind
      rw [step_of_operand limit hoperand hopening]
      unfold whole at hlabel ⊢
      cases h : s.goal with
      | expression level => exact absurd h (hgoal level)
      | _ =>
          exact Or.inl
            (by simp [afterOperand, hop, houter, afterExpression, h, hkind, htarget, hlabel])
  | semicolon hoperand houter hgoal hkind =>
      rw [step_of_operand limit hoperand (by rw [hkind]; decide)]
      simp only [afterOperand, houter, afterExpression, hgoal, afterStatement, isProgram, hkind]
      exact Or.inl rfl

theorem step_eq_shift_iff {limit : Nat} {s next : State} {t : Token} :
    s.step limit t = .shift next ↔ Transition s t next ∧ Allowed limit s next := by
  constructor
  · intro h
    have houtcome := step_outcome limit s t
    rw [h] at houtcome
    cases houtcome with
    | shift htransition hallowed => exact ⟨htransition, hallowed⟩
  · rintro ⟨htransition, hallowed⟩
    rcases htransition.taken limit with h | ⟨_, hdeep⟩
    · exact h
    · exact absurd hallowed hdeep

/-- No token opens more than a call, which uses up the most. -/
theorem Transition.depth_le {s next : State} {t : Token} (h : Transition s t next) :
    next.depth ≤ s.depth + 18 := by
  cases h with
  | sign =>
      simp only [depth_eq, List.length_cons]
      omega
  | literal => exact Nat.le_add_right_of_le (depth_finishOperand_le _ _)
  | name => exact Nat.le_add_right _ _
  | openGroup =>
      rw [depth_openBracket]
      simp [Bracket.cost]
  | openCall =>
      rw [depth_openBracket]
      simp [Bracket.cost]
  | closeEmptyCall _ houter _ =>
      exact Nat.le_add_right_of_le (depth_closeBracket_le houter _)
  | operator => simp only [depth_eq, List.length_nil]; omega
  | closeGroup _ houter _ => exact Nat.le_add_right_of_le (depth_closeBracket_le houter _)
  | comma _ houter _ => simp [depth_eq, houter, Bracket.cost]; omega
  | closeCall _ houter _ => exact Nat.le_add_right_of_le (depth_closeBracket_le houter _)
  | assign _ houter => simp [depth_eq, houter]
  | semicolon => simp [depth_eq]

end Glass.Parser.State
