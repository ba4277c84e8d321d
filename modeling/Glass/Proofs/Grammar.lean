import Glass.Parser.Machine

/-!
The grammar of programs, as a relation between rows of tokens and trees. Expressions are stratified
by level: seven levels of left-associative binary operators, then signs and `not`, then atoms. The
relation says nothing of how a row of tokens is read; it is what the parser is compared with.
-/

namespace Glass

theorem BinaryOp.kind_of_ofKind? {kind : Kind} {op : BinaryOp}
    (h : BinaryOp.ofKind? kind = some op) : op.kind = kind := by
  simpa using List.find?_some h

theorem UnaryOp.kind_of_ofKind? {kind : Kind} {op : UnaryOp}
    (h : UnaryOp.ofKind? kind = some op) : op.kind = kind := by
  simpa using List.find?_some h

theorem BinaryOp.level_pos (op : BinaryOp) : 1 ≤ op.level := by
  cases op <;> decide

theorem BinaryOp.level_lt_unaryLevel (op : BinaryOp) : op.level < unaryLevel := by
  cases op <;> decide

end Glass

namespace Glass.Grammar

/-- The binary operators of each level, the loosest level first. -/
def operators : (level : Nat) → List Kind
  | 1 => [.keyword .orWord]
  | 2 => [.keyword .andWord]
  | 3 => [.symbol .equal, .symbol .notEqual]
  | 4 => [.symbol .less, .symbol .greater, .symbol .lessEqual, .symbol .greaterEqual]
  | 5 => [.symbol .plus, .symbol .minus]
  | 6 => [.symbol .star, .symbol .slash, .symbol .percent]
  | 7 => [.symbol .power]
  | _ => []

def prefixes : List Kind := [.symbol .minus, .symbol .plus, .keyword .notWord]

/-- A literal is one token. -/
inductive Literal : Token → Tree → Prop where
  | number {t : Token} : t.kind = .number → Literal t (.literal .number [t.payload.child] t)
  | string {t : Token} : t.kind = .string → Literal t (.literal .string [t.payload.child] t)
  | truth {t : Token} : t.kind = .keyword .trueWord → Literal t (.literal .boolean [.flag true] t)
  | falsity {t : Token} :
      t.kind = .keyword .falseWord → Literal t (.literal .boolean [.flag false] t)
  | void {t : Token} : t.kind = .keyword .voidWord → Literal t (.literal .void [] t)

/-- An item of a row, with the token that separates it from the item before it. -/
structure Item where
  separator : Token
  tokens : List Token
  tree : Tree

/-- The tokens of a row whose first item has the tokens `first`. -/
def rowTokens (first : List Token) (more : List Item) : List Token :=
  first ++ more.flatMap fun item => item.separator :: item.tokens

def rowTrees (first : Tree) (more : List Item) : List Tree :=
  first :: more.map Item.tree

/-- The tokens that form an expression of a level, and its tree. A grouping leaves no trace in the
tree. -/
inductive Expression : (level : Nat) → List Token → Tree → Prop where
  | operation {level : Nat} {ts us : List Token} {op : Token} {left right : Tree} :
      Expression level ts left → op.kind ∈ operators level → Expression (level + 1) us right →
      Expression level (ts ++ op :: us) (.binaryOp (.ofToken op) left right)
  | tighter {level : Nat} {ts : List Token} {tree : Tree} :
      level < atomLevel → Expression (level + 1) ts tree → Expression level ts tree
  | signed {op : Token} {ts : List Token} {operand : Tree} :
      op.kind ∈ prefixes → Expression unaryLevel ts operand →
      Expression unaryLevel (op :: ts) (.unaryOp (.ofToken op) operand)
  | literal {t : Token} {tree : Tree} : Literal t tree → Expression atomLevel [t] tree
  | name {t : Token} : t.kind = .identifier → Expression atomLevel [t] (.identifier t)
  | emptyCall {name opening closing : Token} :
      name.kind = .identifier → opening.kind = .symbol .leftParen →
      closing.kind = .symbol .rightParen →
      Expression atomLevel [name, opening, closing]
        (.functionCall (.ofToken name) [] (.ofToken closing))
  | call {name opening closing : Token} {ts : List Token} {first : Tree} {more : List Item} :
      name.kind = .identifier → opening.kind = .symbol .leftParen →
      Expression 1 ts first →
      (∀ item ∈ more, item.separator.kind = .symbol .comma) →
      (∀ item ∈ more, Expression 1 item.tokens item.tree) →
      closing.kind = .symbol .rightParen →
      Expression atomLevel (name :: opening :: (rowTokens ts more ++ [closing]))
        (.functionCall (.ofToken name) (rowTrees first more) (.ofToken closing))
  | group {opening closing : Token} {ts : List Token} {tree : Tree} :
      opening.kind = .symbol .leftParen → Expression 1 ts tree →
      closing.kind = .symbol .rightParen →
      Expression atomLevel (opening :: (ts ++ [closing])) tree

/-- What can be assigned to: a name, in any number of parentheses. -/
inductive Target : List Token → Tree → Prop where
  | name {t : Token} : t.kind = .identifier → Target [t] (.identifier t)
  | group {opening closing : Token} {ts : List Token} {tree : Tree} :
      opening.kind = .symbol .leftParen → Target ts tree →
      closing.kind = .symbol .rightParen → Target (opening :: (ts ++ [closing])) tree

inductive Statement : List Token → Tree → Prop where
  | expression {t : Token} {ts : List Token} {tree : Tree} :
      t.kind.startsUnsupported = false → Expression 1 (t :: ts) tree → Statement (t :: ts) tree
  | assignment {op : Token} {ts us : List Token} {target value : Tree} :
      Target ts target → op.kind.isAssignment = true → Expression 1 us value →
      Statement (ts ++ op :: us) (.assignment (.ofToken op) target value)

/-- A program without a semicolon is its one statement; with one it is a block. -/
inductive Program : List Token → Tree → Prop where
  | single {ts : List Token} {tree : Tree} : Statement ts tree → Program ts tree
  | row {ts : List Token} {first : Tree} {more : List Item} :
      Statement ts first → more ≠ [] →
      (∀ item ∈ more, item.separator.kind = .symbol .semicolon) →
      (∀ item ∈ more, Statement item.tokens item.tree) →
      Program (rowTokens ts more) (.block (rowTrees first more))
  | closedRow {ts : List Token} {first : Tree} {more : List Item} {closing : Token} :
      Statement ts first →
      (∀ item ∈ more, item.separator.kind = .symbol .semicolon) →
      (∀ item ∈ more, Statement item.tokens item.tree) →
      closing.kind = .symbol .semicolon →
      Program (rowTokens ts more ++ [closing]) (.block (rowTrees first more))

/-- The tokens and trees that meet a goal of parsing. -/
def Derives : Parser.Goal → List Token → Tree → Prop
  | .program => Program
  | .statement => Statement
  | .expression level => Expression level

theorem mem_operators_iff {kind : Kind} {level : Nat} :
    kind ∈ operators level ↔ ∃ op, BinaryOp.ofKind? kind = some op ∧ op.level = level := by
  constructor
  · intro member
    unfold operators at member
    split at member <;> simp only [List.mem_cons, List.not_mem_nil, or_false] at member
    · exact ⟨.either, member ▸ rfl, rfl⟩
    · exact ⟨.both, member ▸ rfl, rfl⟩
    · rcases member with h | h
      · exact ⟨.equal, h ▸ rfl, rfl⟩
      · exact ⟨.notEqual, h ▸ rfl, rfl⟩
    · rcases member with h | h | h | h
      · exact ⟨.less, h ▸ rfl, rfl⟩
      · exact ⟨.greater, h ▸ rfl, rfl⟩
      · exact ⟨.lessEqual, h ▸ rfl, rfl⟩
      · exact ⟨.greaterEqual, h ▸ rfl, rfl⟩
    · rcases member with h | h
      · exact ⟨.add, h ▸ rfl, rfl⟩
      · exact ⟨.subtract, h ▸ rfl, rfl⟩
    · rcases member with h | h | h
      · exact ⟨.multiply, h ▸ rfl, rfl⟩
      · exact ⟨.divide, h ▸ rfl, rfl⟩
      · exact ⟨.remainder, h ▸ rfl, rfl⟩
    · exact ⟨.power, member ▸ rfl, rfl⟩
  · rintro ⟨op, hop, rfl⟩
    rw [← BinaryOp.kind_of_ofKind? hop]
    cases op <;> decide

theorem mem_prefixes_iff {kind : Kind} :
    kind ∈ prefixes ↔ (UnaryOp.ofKind? kind).isSome = true := by
  constructor
  · intro member
    simp only [prefixes, List.mem_cons, List.not_mem_nil, or_false] at member
    rcases member with rfl | rfl | rfl <;> rfl
  · intro h
    obtain ⟨op, hop⟩ := Option.isSome_iff_exists.mp h
    rw [← UnaryOp.kind_of_ofKind? hop]
    cases op <;> decide

theorem Expression.level_le {level : Nat} {ts : List Token} {tree : Tree}
    (h : Expression level ts tree) : level ≤ atomLevel := by
  cases h with
  | operation _ hop _ =>
      obtain ⟨op, _, rfl⟩ := mem_operators_iff.mp hop
      exact Nat.le_of_lt (Nat.lt_trans (BinaryOp.level_lt_unaryLevel op) (by decide))
  | tighter hlevel _ => exact Nat.le_of_lt hlevel
  | signed => decide
  | _ => exact Nat.le_refl _

/-- What binds more tightly also stands where a looser expression may. -/
theorem Expression.loosen {level looser : Nat} {ts : List Token} {tree : Tree}
    (h : Expression level ts tree) (hle : looser ≤ level) : Expression looser ts tree := by
  have hbound := h.level_le
  obtain ⟨gap, rfl⟩ := Nat.exists_eq_add_of_le hle
  induction gap with
  | zero => exact h
  | succ gap ih =>
      exact ih (.tighter (by omega) h) (by omega) (by omega)

/-- The kinds of token that an expression can start with. -/
def startsExpression (kind : Kind) : Prop :=
  kind ∈ prefixes ∨
    kind ∈ [.number, .string, .keyword .trueWord, .keyword .falseWord, .keyword .voidWord,
      .identifier, .symbol .leftParen]

instance (kind : Kind) : Decidable (startsExpression kind) :=
  inferInstanceAs (Decidable (_ ∨ _))

theorem Literal.starts {t : Token} {tree : Tree} (h : Literal t tree) :
    startsExpression t.kind := by
  cases h with
  | _ hkind => rw [hkind]; decide

theorem Expression.head {level : Nat} {ts : List Token} {tree : Tree}
    (h : Expression level ts tree) :
    ∃ first rest, ts = first :: rest ∧ startsExpression first.kind := by
  induction h with
  | operation _ _ _ ih _ =>
      obtain ⟨first, rest, rfl, hfirst⟩ := ih
      exact ⟨first, _, rfl, hfirst⟩
  | tighter _ _ ih => exact ih
  | signed hop _ _ => exact ⟨_, _, rfl, Or.inl hop⟩
  | literal hliteral => exact ⟨_, _, rfl, hliteral.starts⟩
  | name hname => exact ⟨_, _, rfl, by rw [hname]; decide⟩
  | emptyCall hname => exact ⟨_, _, rfl, by rw [hname]; decide⟩
  | call hname => exact ⟨_, _, rfl, by rw [hname]; decide⟩
  | group hopening => exact ⟨_, _, rfl, by rw [hopening]; decide⟩

/-- The kinds of token that can occur in an expression. -/
def expressionKinds : List Kind :=
  [.number, .string, .keyword .trueWord, .keyword .falseWord, .keyword .voidWord, .identifier,
    .symbol .leftParen, .symbol .rightParen, .symbol .comma] ++ prefixes ++
    BinaryOp.all.map BinaryOp.kind

theorem Literal.mem_expressionKinds {t : Token} {tree : Tree} (h : Literal t tree) :
    t.kind ∈ expressionKinds := by
  cases h with
  | _ hkind => rw [hkind]; decide

theorem forall_mem_rowTokens {P : Token → Prop} {first : List Token} {more : List Item}
    (hfirst : ∀ t ∈ first, P t) (hseparator : ∀ item ∈ more, P item.separator)
    (hitem : ∀ item ∈ more, ∀ t ∈ item.tokens, P t) :
    ∀ t ∈ rowTokens first more, P t := by
  intro t member
  simp only [rowTokens, List.mem_append, List.mem_flatMap, List.mem_cons] at member
  rcases member with member | ⟨item, hmember, rfl | member⟩
  · exact hfirst t member
  · exact hseparator item hmember
  · exact hitem item hmember t member

theorem Expression.kinds {level : Nat} {ts : List Token} {tree : Tree}
    (h : Expression level ts tree) : ∀ t ∈ ts, t.kind ∈ expressionKinds := by
  induction h with
  | @operation _ _ _ op _ _ _ hop _ ihl ihr =>
      have hkind : op.kind ∈ expressionKinds := by
        obtain ⟨binary, hbinary, _⟩ := mem_operators_iff.mp hop
        rw [← BinaryOp.kind_of_ofKind? hbinary]
        exact List.mem_append_right _ (List.mem_map_of_mem (BinaryOp.mem_all binary))
      simp only [List.forall_mem_append, List.forall_mem_cons]
      exact ⟨ihl, hkind, ihr⟩
  | tighter _ _ ih => exact ih
  | @signed op _ _ hop _ ih =>
      have hkind : op.kind ∈ expressionKinds :=
        List.mem_append_left _ (List.mem_append_right _ hop)
      exact List.forall_mem_cons.mpr ⟨hkind, ih⟩
  | literal hliteral => simpa using hliteral.mem_expressionKinds
  | name hname => simp [hname, expressionKinds]
  | emptyCall hname hopening hclosing =>
      simp [hname, hopening, hclosing, expressionKinds]
  | call hname hopening _ hcommas _ hclosing ihfirst ihmore =>
      have hrow := forall_mem_rowTokens (P := fun t => t.kind ∈ expressionKinds) ihfirst
        (fun item member => by rw [hcommas item member]; decide) ihmore
      simp only [List.forall_mem_cons, List.forall_mem_append]
      exact ⟨by rw [hname]; decide, by rw [hopening]; decide, hrow,
        by rw [hclosing]; decide, by simp⟩
  | group hopening _ hclosing ih =>
      simp only [List.forall_mem_cons, List.forall_mem_append]
      exact ⟨by rw [hopening]; decide, ih, by rw [hclosing]; decide, by simp⟩

/-- An expression whose tree is a name is nothing but a name in parentheses. -/
theorem Expression.target {level : Nat} {ts : List Token} {tree : Tree}
    (h : Expression level ts tree) (hlabel : tree.label? = some .identifier) :
    Target ts tree := by
  induction h with
  | tighter _ _ ih => exact ih hlabel
  | literal hliteral => cases hliteral <;> cases hlabel
  | name hname => exact .name hname
  | group hopening _ hclosing ih => exact .group hopening (ih hlabel) hclosing
  | _ => cases hlabel

theorem Target.expression {ts : List Token} {tree : Tree} (h : Target ts tree) :
    Expression atomLevel ts tree ∧ tree.label? = some .identifier := by
  induction h with
  | name hname => exact ⟨.name hname, rfl⟩
  | group hopening _ hclosing ih =>
      exact ⟨.group hopening (ih.1.loosen (by decide)) hclosing, ih.2⟩

theorem isAssignment_not_operator {kind : Kind} (h : kind.isAssignment = true) :
    BinaryOp.ofKind? kind = none ∧ kind ≠ .symbol .leftParen ∧ kind.isFlaw = false ∧
      kind ≠ .symbol .semicolon := by
  unfold Kind.isAssignment at h
  split at h <;> first | exact ⟨rfl, by decide, rfl, by decide⟩ | cases h

/-- Statements hold neither flaws nor semicolons. -/
theorem Statement.kinds {ts : List Token} {tree : Tree} (h : Statement ts tree) :
    ∀ t ∈ ts, t.kind.isFlaw = false ∧ t.kind ≠ .symbol .semicolon := by
  have hkinds : ∀ kind ∈ expressionKinds, kind.isFlaw = false ∧ kind ≠ .symbol .semicolon := by
    decide
  cases h with
  | expression _ hexpression =>
      intro t member
      exact hkinds _ (hexpression.kinds t member)
  | assignment htarget hop hvalue =>
      have hassign := (isAssignment_not_operator hop).2.2
      simp only [List.forall_mem_append, List.forall_mem_cons]
      exact ⟨fun t member => hkinds _ (htarget.expression.1.kinds t member), hassign,
        fun t member => hkinds _ (hvalue.kinds t member)⟩

theorem Expression.label_ne_block {level : Nat} {ts : List Token} {tree : Tree}
    (h : Expression level ts tree) : tree.label? ≠ some .block := by
  induction h with
  | tighter _ _ ih => exact ih
  | literal hliteral => cases hliteral <;> simp [Tree.literal, Tree.label?]
  | group _ _ _ ih => exact ih
  | _ =>
      simp [Tree.binaryOp, Tree.unaryOp, Tree.identifier, Tree.functionCall, Tree.spanning,
        Tree.label?]

theorem Statement.label_ne_block {ts : List Token} {tree : Tree} (h : Statement ts tree) :
    tree.label? ≠ some .block := by
  cases h with
  | expression _ hexpression => exact hexpression.label_ne_block
  | assignment => simp [Tree.assignment, Tree.spanning, Tree.label?]

theorem label_block (statements : List Tree) : (Tree.block statements).label? = some .block := by
  unfold Tree.block
  split <;> rfl

/-- A program's tree is a block exactly if a semicolon occurs. -/
theorem Program.block_iff {ts : List Token} {tree : Tree} (h : Program ts tree) :
    tree.label? = some .block ↔ ∃ t ∈ ts, t.kind = .symbol .semicolon := by
  cases h with
  | single hstatement =>
      apply iff_of_false hstatement.label_ne_block
      rintro ⟨t, member, hkind⟩
      exact (hstatement.kinds t member).2 hkind
  | @row _ _ more _ hmore hsemicolons _ =>
      apply iff_of_true (label_block _)
      obtain ⟨item, rest, rfl⟩ := List.exists_cons_of_ne_nil hmore
      exact ⟨item.separator, by simp [rowTokens], hsemicolons item (by simp)⟩
  | @closedRow _ _ _ closing _ _ _ hclosing =>
      exact iff_of_true (label_block _) ⟨closing, by simp, hclosing⟩

/-- What the grammar derives holds no flaw. -/
theorem Derives.not_flaw {goal : Parser.Goal} {ts : List Token} {tree : Tree}
    (h : Derives goal ts tree) : ∀ t ∈ ts, t.kind.isFlaw = false := by
  have hstatement {us : List Token} {part : Tree} (hpart : Statement us part) :
      ∀ t ∈ us, t.kind.isFlaw = false := fun t member => (hpart.kinds t member).1
  have hrow {us : List Token} {more : List Item} (hfirst : ∀ t ∈ us, t.kind.isFlaw = false)
      (hsemicolons : ∀ item ∈ more, item.separator.kind = .symbol .semicolon)
      (hitems : ∀ item ∈ more, Statement item.tokens item.tree) :
      ∀ t ∈ rowTokens us more, t.kind.isFlaw = false :=
    forall_mem_rowTokens hfirst (fun item member => by rw [hsemicolons item member]; rfl)
      fun item member => hstatement (hitems item member)
  cases goal with
  | expression level =>
      have hkinds : ∀ kind ∈ expressionKinds, kind.isFlaw = false := by decide
      intro t member
      exact hkinds _ (Expression.kinds h t member)
  | statement => exact hstatement h
  | program =>
      cases h with
      | single hsingle => exact hstatement hsingle
      | row hfirst _ hsemicolons hitems => exact hrow (hstatement hfirst) hsemicolons hitems
      | closedRow hfirst hsemicolons hitems hclosing =>
          refine List.forall_mem_append.mpr ⟨hrow (hstatement hfirst) hsemicolons hitems, ?_⟩
          exact List.forall_mem_singleton.mpr (by rw [hclosing]; rfl)

end Glass.Grammar
