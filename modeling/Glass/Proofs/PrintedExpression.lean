import Glass.Proofs.NestingDepth
import Glass.Proofs.SpacedWords

/-!
Printed expressions parse back. An expression is printed as a row of words, with parentheses where an
operand binds less tightly than its place asks for, and wherever else they are wanted. The grammar
derives the expression's tree from these words at the level of its outermost operator, so that the
text has that tree, the places of its nodes aside.
-/

namespace Glass

namespace Tree

mutual

/-- The tree without the places of its nodes and tokens. -/
def unplaced : Tree → Tree
  | .node label children _ => .node label (unplacedAll children) none
  | .token kindName spelling _ => .token kindName spelling none
  | leaf => leaf

def unplacedAll : List Tree → List Tree
  | [] => []
  | t :: rest => t.unplaced :: unplacedAll rest

end

end Tree

/-- An expression as it can be written; a group is a pair of parentheses that need not be there. -/
inductive Expr where
  | number (x : Magnitude)
  | string (text : String)
  | boolean (value : Bool)
  | void
  | name (n : Name)
  | unary (op : UnaryOp) (operand : Expr)
  | binary (op : BinaryOp) (left right : Expr)
  | call (function : Name) (arguments : List Expr)
  | group (inner : Expr)

def UnaryOp.word : UnaryOp → Word
  | .plus => .symbol .plus
  | .minus => .symbol .minus
  | .negation => .keyword .notWord

def BinaryOp.word : BinaryOp → Word
  | .add => .symbol .plus
  | .subtract => .symbol .minus
  | .multiply => .symbol .star
  | .divide => .symbol .slash
  | .remainder => .symbol .percent
  | .power => .symbol .power
  | .equal => .symbol .equal
  | .notEqual => .symbol .notEqual
  | .less => .symbol .less
  | .greater => .symbol .greater
  | .lessEqual => .symbol .lessEqual
  | .greaterEqual => .symbol .greaterEqual
  | .both => .keyword .andWord
  | .either => .keyword .orWord

@[simp] theorem UnaryOp.content_word (op : UnaryOp) :
    op.word.content = (op.kind, .text op.spelling) := by
  cases op <;> rfl

@[simp] theorem BinaryOp.content_word (op : BinaryOp) :
    op.word.content = (op.kind, .text op.spelling) := by
  cases op <;> rfl

theorem Word.content_name (n : Name) : (Word.name n).content = (.identifier, .text n.text) := rfl

/-- Words in parentheses. -/
def enclose (words : List Word) : List Word :=
  .symbol .leftParen :: (words ++ [.symbol .rightParen])

/-- The words of an expression of a level, where one of at least the level `place` is asked for. -/
def protect (place level : Nat) (words : List Word) : List Word :=
  if level < place then enclose words else words

/-- How deep the words nest with the parentheses that are put around them. -/
def protectedNesting (place level nesting : Nat) : Nat :=
  if level < place then nesting + 17 else nesting

namespace Expr

/-- How tightly the outermost operator binds. -/
def level : Expr → Nat
  | .unary _ _ => unaryLevel
  | .binary op _ _ => op.level
  | _ => atomLevel

mutual

/-- The tree of an expression. It has no places, and groups leave no trace in it. -/
def tree : Expr → Tree
  | .number x => .node .number [.number x.value] none
  | .string text => .node .string [.text text] none
  | .boolean value => .node .boolean [.flag value] none
  | .void => .node .void [] none
  | .name n => .node .identifier [.token Kind.identifier.name n.text none] none
  | .unary op operand =>
      .node .unaryOp [.token op.kind.name op.spelling none, operand.tree] none
  | .binary op left right =>
      .node .binaryOp [.token op.kind.name op.spelling none, left.tree, right.tree] none
  | .call function arguments =>
      .node .functionCall (.token Kind.identifier.name function.text none :: trees arguments) none
  | .group inner => inner.tree

def trees : List Expr → List Tree
  | [] => []
  | e :: rest => e.tree :: trees rest

end

mutual

/-- The words of an expression. A right operand has to bind more tightly than its operator, a left
one as tightly. -/
def words : Expr → List Word
  | .number x => [.number x]
  | .string text => [.string text]
  | .boolean true => [.keyword .trueWord]
  | .boolean false => [.keyword .falseWord]
  | .void => [.keyword .voidWord]
  | .name n => [.name n]
  | .unary op operand => op.word :: protect unaryLevel operand.level operand.words
  | .binary op left right =>
      protect op.level left.level left.words ++
        op.word :: protect (op.level + 1) right.level right.words
  | .call function [] => .name function :: enclose []
  | .call function (first :: more) => .name function :: enclose (first.words ++ moreWords more)
  | .group inner => enclose inner.words

/-- The words of the arguments behind the first one. -/
def moreWords : List Expr → List Word
  | [] => []
  | e :: rest => .symbol .comma :: (e.words ++ moreWords rest)

end

def text (e : Expr) : String := spaced e.words

mutual

/-- How deep parsing the words of an expression nests. -/
def nesting : Expr → Nat
  | .unary _ operand => protectedNesting unaryLevel operand.level operand.nesting + 1
  | .binary op left right =>
      max (protectedNesting op.level left.level left.nesting)
        (protectedNesting (op.level + 1) right.level right.nesting)
  | .call _ arguments => nestingOfAll arguments + 18
  | .group inner => inner.nesting + 17
  | _ => 0

def nestingOfAll : List Expr → Nat
  | [] => 0
  | e :: rest => max e.nesting (nestingOfAll rest)

end

end Expr

open Grammar Parser.State

/-- The tokens carry what the words do. -/
def Spell (ts : List Token) (words : List Word) : Prop :=
  ts.map Token.content = words.map Word.content

theorem Spell.nil {ts : List Token} (h : Spell ts []) : ts = [] := List.map_eq_nil_iff.mp h

theorem Spell.cons {ts : List Token} {w : Word} {words : List Word} (h : Spell ts (w :: words)) :
    ∃ t rest, ts = t :: rest ∧ t.content = w.content ∧ Spell rest words :=
  List.map_eq_cons_iff.mp h

theorem Spell.append {ts : List Token} {words others : List Word} (h : Spell ts (words ++ others)) :
    ∃ first rest, ts = first ++ rest ∧ Spell first words ∧ Spell rest others := by
  rw [Spell, List.map_append] at h
  exact List.map_eq_append_iff.mp h

theorem Spell.enclose {ts : List Token} {words : List Word} (h : Spell ts (enclose words)) :
    ∃ opening inner closing, ts = opening :: (inner ++ [closing]) ∧
      opening.kind = .symbol .leftParen ∧ Spell inner words ∧
      closing.kind = .symbol .rightParen := by
  obtain ⟨opening, behind, rfl, hopening, hbehind⟩ := h.cons
  obtain ⟨inner, end', rfl, hinner, hend⟩ := hbehind.append
  obtain ⟨closing, none', rfl, hclosing, hnone⟩ := hend.cons
  obtain rfl := hnone.nil
  exact ⟨opening, inner, closing, rfl, (Prod.mk.inj hopening).1, hinner, (Prod.mk.inj hclosing).1⟩

theorem Spell.unplaced_ofToken {t : Token} {kind : Kind} {text : String}
    (h : t.content = (kind, .text text)) :
    t.kind = kind ∧ (Tree.ofToken t).unplaced = .token kind.name text none := by
  obtain ⟨hkind, hpayload⟩ := Prod.mk.inj h
  exact ⟨hkind, by rw [Tree.ofToken, hkind, hpayload]; rfl⟩

/-- Tokens that carry these words form an expression of the level with this tree, places aside, and
parsing them nests so deep. -/
def Reads (words : List Word) (level : Nat) (tree : Tree) (nesting : Nat) : Prop :=
  ∀ ts, Spell ts words →
    ∃ parsed, Expression level ts parsed ∧ parsed.unplaced = tree ∧ Climbs level ts nesting

namespace Reads

theorem loosen {words : List Word} {level looser : Nat} {tree : Tree} {nesting : Nat}
    (h : Reads words level tree nesting) (hle : looser ≤ level) :
    Reads words looser tree nesting := by
  intro ts hts
  obtain ⟨parsed, hparsed, htree, hclimbs⟩ := h ts hts
  exact ⟨parsed, hparsed.loosen hle, htree, hclimbs.loosen hle⟩

theorem enclosed {words : List Word} {tree : Tree} {nesting : Nat}
    (h : Reads words 1 tree nesting) : Reads (enclose words) atomLevel tree (nesting + 17) := by
  intro ts hts
  obtain ⟨opening, inner, closing, rfl, hopening, hinner, hclosing⟩ := hts.enclose
  obtain ⟨parsed, hparsed, htree, hclimbs⟩ := h inner hinner
  exact ⟨parsed, .group hopening hparsed hclosing, htree,
    .group hopening hparsed hclosing hclimbs⟩

/-- With parentheses where they are needed, an expression may stand at any place. -/
theorem placed {words : List Word} {place level : Nat} {tree : Tree} {nesting : Nat}
    (h : Reads words level tree nesting) (hlevel : 1 ≤ level) (hplace : place ≤ atomLevel) :
    Reads (protect place level words) place tree (protectedNesting place level nesting) := by
  unfold protect protectedNesting
  split
  next => exact (enclosed (h.loosen hlevel)).loosen hplace
  next hle => exact h.loosen (Nat.not_lt.mp hle)

theorem operation {op : BinaryOp} {words others : List Word} {left right : Tree} {m n : Nat}
    (hleft : Reads words op.level left m) (hright : Reads others (op.level + 1) right n) :
    Reads (words ++ op.word :: others) op.level
      (.node .binaryOp [.token op.kind.name op.spelling none, left, right] none) (max m n) := by
  intro ts hts
  obtain ⟨first, behind, rfl, hfirst, hbehind⟩ := hts.append
  obtain ⟨t, second, rfl, ht, hsecond⟩ := hbehind.cons
  rw [BinaryOp.content_word] at ht
  obtain ⟨hkind, htoken⟩ := Spell.unplaced_ofToken ht
  obtain ⟨parsed, hparsed, rfl, hclimbs⟩ := hleft first hfirst
  obtain ⟨parsed', hparsed', rfl, hclimbs'⟩ := hright second hsecond
  have hoperator : t.kind ∈ operators op.level :=
    mem_operators_iff.mpr ⟨op, by rw [hkind, BinaryOp.ofKind?_kind], rfl⟩
  refine ⟨_, .operation hparsed hoperator hparsed', ?_,
    .operation hparsed hoperator hclimbs hclimbs'⟩
  simp only [Tree.binaryOp, Tree.spanning, Tree.unplaced, Tree.unplacedAll, htoken]

theorem signed {op : UnaryOp} {words : List Word} {operand : Tree} {nesting : Nat}
    (h : Reads words unaryLevel operand nesting) :
    Reads (op.word :: words) unaryLevel
      (.node .unaryOp [.token op.kind.name op.spelling none, operand] none) (nesting + 1) := by
  intro ts hts
  obtain ⟨t, behind, rfl, ht, hbehind⟩ := hts.cons
  rw [UnaryOp.content_word] at ht
  obtain ⟨hkind, htoken⟩ := Spell.unplaced_ofToken ht
  obtain ⟨parsed, hparsed, rfl, hclimbs⟩ := h behind hbehind
  have hsign : t.kind ∈ prefixes := mem_prefixes_iff.mpr (by rw [hkind, UnaryOp.ofKind?_kind]; rfl)
  refine ⟨_, .signed hsign hparsed, ?_, .signed hsign hclimbs⟩
  simp only [Tree.unaryOp, Tree.spanning, Tree.unplaced, Tree.unplacedAll, htoken]

/-- A word that is a literal. -/
theorem literal {w : Word} {tree : Tree}
    (h : ∀ t : Token, t.content = w.content → ∃ parsed, Literal t parsed ∧ parsed.unplaced = tree) :
    Reads [w] atomLevel tree 0 := by
  intro ts hts
  obtain ⟨t, behind, rfl, ht, hbehind⟩ := hts.cons
  obtain rfl := hbehind.nil
  obtain ⟨parsed, hliteral, htree⟩ := h t ht
  exact ⟨parsed, .literal hliteral, htree, .literal hliteral⟩

theorem name (n : Name) :
    Reads [.name n] atomLevel
      (.node .identifier [.token Kind.identifier.name n.text none] none) 0 := by
  intro ts hts
  obtain ⟨t, behind, rfl, ht, hbehind⟩ := hts.cons
  obtain rfl := hbehind.nil
  rw [Word.content_name] at ht
  obtain ⟨hkind, htoken⟩ := Spell.unplaced_ofToken ht
  refine ⟨_, .name hkind, ?_, .name hkind⟩
  simp only [Tree.identifier, Tree.spanning, Tree.unplaced, Tree.unplacedAll, htoken]

end Reads

/-- Tokens that carry these words form the arguments behind the first one, each with the comma in
front of it. -/
def ReadsMore (words : List Word) (trees : List Tree) (nesting : Nat) : Prop :=
  ∀ ts, Spell ts words →
    ∃ items : List Item, ts = items.flatMap (fun item => item.separator :: item.tokens) ∧
      (∀ item ∈ items, item.separator.kind = .symbol .comma) ∧
      (∀ item ∈ items, Expression 1 item.tokens item.tree) ∧
      Tree.unplacedAll (items.map Item.tree) = trees ∧ ClimbsMore items nesting

theorem ReadsMore.nil : ReadsMore [] [] 0 := by
  intro ts hts
  obtain rfl := hts.nil
  exact ⟨[], rfl, by simp, by simp, rfl, .nil⟩

theorem ReadsMore.cons {words others : List Word} {tree : Tree} {trees : List Tree} {m n : Nat}
    (h : Reads words 1 tree m) (hmore : ReadsMore others trees n) :
    ReadsMore (.symbol .comma :: (words ++ others)) (tree :: trees) (max m n) := by
  intro ts hts
  obtain ⟨comma, behind, rfl, hcomma, hbehind⟩ := hts.cons
  obtain ⟨first, rest, rfl, hfirst, hrest⟩ := hbehind.append
  obtain ⟨parsed, hparsed, rfl, hclimbs⟩ := h first hfirst
  obtain ⟨items, rfl, hcommas, hitems, rfl, hclimbs'⟩ := hmore rest hrest
  refine ⟨⟨comma, first, parsed⟩ :: items, rfl, ?_, ?_, rfl, .cons hclimbs hclimbs'⟩
  · exact List.forall_mem_cons.mpr ⟨(Prod.mk.inj hcomma).1, hcommas⟩
  · exact List.forall_mem_cons.mpr ⟨hparsed, hitems⟩

namespace Reads

theorem emptyCall (function : Name) :
    Reads (.name function :: enclose []) atomLevel
      (.node .functionCall [.token Kind.identifier.name function.text none] none) 18 := by
  intro ts hts
  obtain ⟨t, behind, rfl, ht, hbehind⟩ := hts.cons
  obtain ⟨opening, inner, closing, rfl, hopening, hinner, hclosing⟩ := hbehind.enclose
  obtain rfl := hinner.nil
  rw [Word.content_name] at ht
  obtain ⟨hkind, htoken⟩ := Spell.unplaced_ofToken ht
  refine ⟨_, .emptyCall hkind hopening hclosing, ?_, .emptyCall hkind hopening hclosing⟩
  simp only [Tree.functionCall, Tree.spanning, Tree.unplaced, Tree.unplacedAll, htoken]

theorem call (function : Name) {words others : List Word} {first : Tree} {more : List Tree}
    {m n : Nat} (hfirst : Reads words 1 first m) (hmore : ReadsMore others more n) :
    Reads (.name function :: enclose (words ++ others)) atomLevel
      (.node .functionCall (.token Kind.identifier.name function.text none :: first :: more)
        none) (max m n + 18) := by
  intro ts hts
  obtain ⟨t, behind, rfl, ht, hbehind⟩ := hts.cons
  obtain ⟨opening, inner, closing, rfl, hopening, hinner, hclosing⟩ := hbehind.enclose
  obtain ⟨front, back, rfl, hfront, hback⟩ := hinner.append
  rw [Word.content_name] at ht
  obtain ⟨hkind, htoken⟩ := Spell.unplaced_ofToken ht
  obtain ⟨parsed, hparsed, rfl, hclimbs⟩ := hfirst front hfront
  obtain ⟨items, rfl, hcommas, hitems, rfl, hclimbs'⟩ := hmore back hback
  refine ⟨_, .call hkind hopening hparsed hcommas hitems hclosing, ?_,
    .call hkind hopening hparsed hcommas hitems hclosing hclimbs hclimbs'⟩
  simp only [Tree.functionCall, Tree.spanning, Tree.unplaced, Tree.unplacedAll, htoken, rowTrees]

end Reads

namespace Expr

theorem level_pos (e : Expr) : 1 ≤ e.level := by
  unfold level
  split
  · decide
  · exact BinaryOp.level_pos _
  · decide

mutual

/-- The words of an expression read as its tree. -/
theorem reads : (e : Expr) → Reads e.words e.level e.tree e.nesting
  | .number x => .literal fun t ht => by
      obtain ⟨hkind, hpayload⟩ := Prod.mk.inj ht
      exact ⟨_, .number hkind, by rw [hpayload]; rfl⟩
  | .string text => .literal fun t ht => by
      obtain ⟨hkind, hpayload⟩ := Prod.mk.inj ht
      exact ⟨_, .string hkind, by rw [hpayload]; rfl⟩
  | .boolean true => .literal fun t ht => ⟨_, .truth (Prod.mk.inj ht).1, rfl⟩
  | .boolean false => .literal fun t ht => ⟨_, .falsity (Prod.mk.inj ht).1, rfl⟩
  | .void => .literal fun t ht => ⟨_, .void (Prod.mk.inj ht).1, rfl⟩
  | .name n => .name n
  | .unary op operand => .signed (operand.reads.placed operand.level_pos (by decide))
  | .binary op left right => by
      have hbound := op.level_lt_unaryLevel
      have hlevel : op.level + 1 ≤ atomLevel := Nat.le_succ_of_le hbound
      exact .operation (left.reads.placed left.level_pos (Nat.le_of_succ_le hlevel))
        (right.reads.placed right.level_pos hlevel)
  | .call function [] => .emptyCall function
  | .call function (first :: more) =>
      .call function (first.reads.loosen first.level_pos) (readsMore more)
  | .group e => .enclosed (e.reads.loosen e.level_pos)

theorem readsMore : (more : List Expr) → ReadsMore (moreWords more) (trees more) (nestingOfAll more)
  | [] => .nil
  | e :: rest => .cons (e.reads.loosen e.level_pos) (readsMore rest)

end

/-- The grammar derives the tree of an expression from tokens that carry its words. -/
theorem program_of_spell {ts : List Token} (e : Expr) (h : Spell ts e.words) :
    ∃ tree, Program ts tree ∧ tree.unplaced = e.tree ∧ (initial .program).peak ts = e.nesting := by
  obtain ⟨tree, hparsed, htree, hclimbs⟩ := e.reads.loosen e.level_pos ts h
  obtain ⟨first, rest, rfl, hstarts⟩ := hparsed.head
  have hready : (initial .program).Ready 1 := ready_outside (by simp [initial]) rfl rfl trivial
  have hpeak := hclimbs _ hready
  rw [show (initial .program).depth = 0 from rfl, Nat.zero_add] at hpeak
  exact ⟨tree, .single (.expression (startsExpression_not_unsupported hstarts).1 hparsed), htree,
    hpeak⟩

theorem program_text (e : Expr) :
    ∃ tree, Program (tokenize e.text) tree ∧ tree.unplaced = e.tree ∧
      (initial .program).peak (tokenize e.text) = e.nesting :=
  e.program_of_spell (tokenize_spaced e.words)

variable (e : Expr) (filename : Option String) {limits : Limits}

theorem parseProgram_tooDeep (h : limits.nesting < e.nesting) :
    parseProgram e.text filename limits = .error .tooDeep := by
  obtain ⟨tree, hprogram, _, hpeak⟩ := e.program_text
  obtain ⟨last, hmoves, _⟩ := finishes_program hprogram
  rw [← hpeak] at h
  have hrun := hmoves.run_tooDeep (Nat.zero_le _) h []
  rw [List.append_nil] at hrun
  exact parseProgram_of_run hrun

theorem nesting_groups (n : Nat) : (Nat.repeat Expr.group n e).nesting = e.nesting + 17 * n := by
  induction n with
  | zero => rfl
  | succ n ih =>
      rw [Nat.repeat, nesting, ih]
      omega

end Expr

/-- Whatever an expression is and wherever it has parentheses that need not be there, its text is
parsed to its tree, the places aside, unless it nests deeper than is allowed; then the parser says
so. -/
theorem printed_expression_parses_back (e : Expr) (filename : Option String) (limits : Limits) :
    (e.nesting ≤ limits.nesting →
      ∃ tree, parseProgram e.text filename limits = .ok tree ∧ tree.unplaced = e.tree) ∧
    (limits.nesting < e.nesting → parseProgram e.text filename limits = .error .tooDeep) := by
  refine ⟨fun hallowed => ?_, e.parseProgram_tooDeep filename⟩
  obtain ⟨tree, hprogram, htree, hpeak⟩ := e.program_text
  obtain ⟨last, hmoves, hfinish⟩ := finishes_program hprogram
  rw [← hpeak] at hallowed
  have hrun := hmoves.run_of_peak hallowed []
  rw [List.append_nil, run, hfinish] at hrun
  exact ⟨tree, parseProgram_of_run (congrArg Prod.fst hrun), htree⟩

/-- The text of `- ( f ( 0.1 , "\"" ) ** ( - void ** true ) )`, an outer group and the inner one that
the right operand of a power needs included. -/
theorem printed_expression_parses_back_power :
    let x : Magnitude := ⟨0.1, by decide +kernel, by decide +kernel⟩
    let f : Name := ⟨"f", LexemeClass.contains_word rfl rfl, by intro k; cases k <;> decide⟩
    let e : Expr := .unary .minus (.group (.binary .power (.call f [.number x, .string "\""])
      (.binary .power (.unary .minus .void) (.boolean true))))
    e.nesting ≤ ({} : Limits).nesting ∧
      ∃ tree, parseProgram e.text none {} = .ok tree ∧ tree.unplaced = e.tree := by
  intro x f e
  have hnesting : e.nesting ≤ ({} : Limits).nesting := by decide
  exact ⟨hnesting, (printed_expression_parses_back e none {}).1 hnesting⟩

example :
    (Expr.binary .power (.unary .minus (.string "\""))
      (.binary .power (.group .void) (.boolean true))).text =
      "- \"\\\"\" ** ( ( void ) ** true )" := rfl

/-- Parentheses alone can nest too deeply: behind `not`, four hundred pairs of them around `true` do,
and the text has no tree. -/
theorem groups_nest_too_deeply :
    ¬ ∃ tree, parseProgram
        (Expr.unary .negation (Nat.repeat Expr.group 400 (.boolean true))).text none {} = .ok tree ∧
      tree.unplaced = (Expr.unary .negation (Nat.repeat Expr.group 400 (.boolean true))).tree := by
  have hnesting : ({} : Limits).nesting <
      (Expr.unary .negation (Nat.repeat Expr.group 400 (.boolean true))).nesting := by
    have hgroups := Expr.nesting_groups (.boolean true) 400
    have hprotected : (Expr.unary .negation (Nat.repeat Expr.group 400 (.boolean true))).nesting =
        (Nat.repeat Expr.group 400 (.boolean true)).nesting + 1 := rfl
    rw [hprotected, hgroups]
    decide
  rintro ⟨tree, hparse, _⟩
  rw [Expr.parseProgram_tooDeep _ none hnesting] at hparse
  cases hparse

end Glass
