import Glass.Evaluation
import Glass.Proofs.Grammar
import Glass.Proofs.Tokenization

/-!
Trees that the grammar derives from the tokens of a text. Each node has a place in the text and the
children its label calls for, so evaluation never meets a node it cannot read; and a tree is no
higher than it has tokens.
-/

namespace Glass.Tree

/-- The tree stands somewhere in a text of the given length. -/
def Placed (length : Nat) (t : Tree) : Prop :=
  ∃ span line column, t.place? = some ⟨.ok span, line, column⟩ ∧ span.stop ≤ length

/-- Every node stands in the text and has children that can be evaluated. -/
inductive Sound (length : Nat) : Tree → Prop where
  | number {x : Float} {place : Option Place} :
      Placed length (.node .number [.number x] place) →
      Sound length (.node .number [.number x] place)
  | string {text : String} {place : Option Place} :
      Placed length (.node .string [.text text] place) →
      Sound length (.node .string [.text text] place)
  | boolean {b : Bool} {place : Option Place} :
      Placed length (.node .boolean [.flag b] place) →
      Sound length (.node .boolean [.flag b] place)
  | void {place : Option Place} :
      Placed length (.node .void [] place) → Sound length (.node .void [] place)
  | identifier {t : Token} {place : Option Place} :
      Placed length (.node .identifier [.ofToken t] place) →
      Sound length (.node .identifier [.ofToken t] place)
  | unaryOp {op operand : Tree} {unary : UnaryOp} {place : Option Place} :
      Placed length (.node .unaryOp [op, operand] place) → op.unaryOp? = some unary →
      Sound length operand → Sound length (.node .unaryOp [op, operand] place)
  | binaryOp {op left right : Tree} {binary : BinaryOp} {place : Option Place} :
      Placed length (.node .binaryOp [op, left, right] place) → op.binaryOp? = some binary →
      Sound length left → Sound length right →
      Sound length (.node .binaryOp [op, left, right] place)
  | assignment {children : List Tree} {place : Option Place} :
      Placed length (.node .assignment children place) →
      Sound length (.node .assignment children place)
  | functionCall {children : List Tree} {place : Option Place} :
      Placed length (.node .functionCall children place) →
      Sound length (.node .functionCall children place)
  | block {children : List Tree} {place : Option Place} :
      Placed length (.node .block children place) → (∀ child ∈ children, Sound length child) →
      Sound length (.node .block children place)

theorem Sound.placed {length : Nat} {t : Tree} (h : Sound length t) : Placed length t := by
  cases h <;> assumption

/-- The result is a value, if there is one. -/
def GivesValue (result : Except Failure Operand) : Prop :=
  ∀ a, result = .ok a → ∃ v : Value, a = v

theorem GivesValue.ofResult (result : Except Cause Value) :
    GivesValue (Operand.ofResult result) := by
  intro a h
  cases result with
  | error cause => cases h
  | ok v =>
      cases h
      exact ⟨v, rfl⟩

theorem GivesValue.bind {result : Except Failure Operand}
    {next : Operand → Except Failure Operand} (h : GivesValue result)
    (hnext : ∀ v : Value, GivesValue (next v)) : GivesValue (result >>= next) := by
  cases result with
  | error failure => rintro _ ⟨⟩
  | ok a =>
      obtain ⟨v, rfl⟩ := h a rfl
      exact hnext v

theorem GivesValue.node {scope : Scope} {t : Tree}
    (h : ∀ room, GivesValue (evalNode scope (Tree.eval scope room) t)) (room : Nat) :
    GivesValue (t.eval scope room) := by
  intro a heval
  cases room with
  | zero => cases heval
  | succ room =>
      rw [Tree.eval] at heval
      cases hnode : evalNode scope (Tree.eval scope room) t with
      | error failure =>
          rw [hnode] at heval
          cases heval
      | ok b =>
          rw [hnode] at heval
          cases heval
          exact h room a hnode

theorem GivesValue.leaf {scope : Scope} {t : Tree} {r : Except Cause Value}
    (h : ∀ eval, evalNode scope eval t = Operand.ofResult r) (room : Nat) :
    GivesValue (t.eval scope room) := by
  refine .node (fun room => ?_) room
  rw [h]
  exact .ofResult r

theorem evalNode_name (scope : Scope) (eval : Tree → Except Failure Operand) (name : Token)
    (place : Option Place) :
    evalNode scope eval (.node .identifier [.ofToken name] place) =
      match scope.find? name.payload.toText with
      | some value => .ok (.value value)
      | none => .error (.ofCause (.undefinedName name.payload.toText)) := rfl

/-- What a sound tree comes to is a value. -/
theorem Sound.givesValue {length : Nat} {t : Tree} (h : Sound length t) (scope : Scope)
    (room : Nat) : GivesValue (t.eval scope room) := by
  induction h generalizing room with
  | @identifier name _ _ =>
      refine .node (fun _ => ?_) room
      rw [evalNode_name]
      cases scope.find? name.payload.toText with
      | some v => exact .ofResult (.ok v)
      | none => exact .ofResult (.error _)
  | unaryOp _ hop _ ih =>
      refine .node (fun room => ?_) room
      simp only [evalNode, hop]
      exact (ih room).bind fun _ => .ofResult _
  | binaryOp _ hop _ _ ihl ihr =>
      refine .node (fun room => ?_) room
      simp only [evalNode, hop]
      exact (ihl room).bind fun _ => (ihr room).bind fun _ => .ofResult _
  | block _ _ _ =>
      refine .node (fun room => ?_) room
      simp only [evalNode]
      cases List.forM _ fun child => discard (Tree.eval scope room child) with
      | error failure => rintro _ ⟨⟩
      | ok done => exact .ofResult (.ok .void)
  | @number x _ _ => exact .leaf (r := .ok (.number x)) (fun _ => rfl) room
  | @string text _ _ => exact .leaf (r := .ok (.string text)) (fun _ => rfl) room
  | @boolean b _ _ => exact .leaf (r := .ok (.boolean b)) (fun _ => rfl) room
  | void => exact .leaf (r := .ok .void) (fun _ => rfl) room
  | assignment => exact .leaf (r := .error Label.assignment.unsupported) (fun _ => rfl) room
  | functionCall => exact .leaf (r := .error Label.functionCall.unsupported) (fun _ => rfl) room

theorem placed_ofToken {length : Nat} {t : Token} (h : t.Fits length) :
    Placed length (ofToken t) :=
  ⟨t.span, t.line, t.column, rfl, h.span_le⟩

theorem placed_literal {length : Nat} {t : Token} (label : Label) (children : List Tree)
    (h : t.Fits length) : Placed length (literal label children t) :=
  ⟨t.span, t.line, t.column, rfl, h.span_le⟩

theorem placed_spanning {length : Nat} {first last : Tree} (label : Label) (children : List Tree)
    (hfirst : Placed length first) (hlast : Placed length last) :
    Placed length (spanning label children first last) := by
  obtain ⟨span, line, column, hplace, hle⟩ := hfirst
  obtain ⟨span', line', column', hplace', hle'⟩ := hlast
  have hspan : first.span? = some span := by rw [span?, hplace]; rfl
  have hspan' : last.span? = some span' := by rw [span?, hplace']; rfl
  refine ⟨span.cover span', line, column, ?_, Nat.max_le.mpr ⟨hle, hle'⟩⟩
  rw [spanning, hplace, hspan, hspan']
  rfl

theorem height_spanning (label : Label) (children : List Tree) (first last : Tree) :
    (spanning label children first last).height = heightOfAll children + 1 := by
  rw [spanning, height]

theorem heightOfAll_le {bound : Nat} {trees : List Tree} (h : ∀ t ∈ trees, t.height ≤ bound) :
    heightOfAll trees ≤ bound := by
  induction trees with
  | nil => exact Nat.zero_le _
  | cons t trees ih =>
      obtain ⟨ht, htrees⟩ := List.forall_mem_cons.mp h
      rw [heightOfAll]
      exact Nat.max_le.mpr ⟨ht, ih htrees⟩

theorem height_le_heightOfAll {t : Tree} {trees : List Tree} (h : t ∈ trees) :
    t.height ≤ heightOfAll trees := by
  induction h with
  | head => exact Nat.le_max_left _ _
  | tail _ _ ih => exact Nat.le_trans ih (Nat.le_max_right _ _)

end Glass.Tree

namespace Glass

theorem UnaryOp.ofKindName?_of_mem_prefixes {kind : Kind} (h : kind ∈ Grammar.prefixes) :
    ∃ op, UnaryOp.ofKindName? kind.name = some op := by
  simp only [Grammar.prefixes, List.mem_cons, List.not_mem_nil, or_false] at h
  rcases h with rfl | rfl | rfl
  · exact ⟨.minus, by decide⟩
  · exact ⟨.plus, by decide⟩
  · exact ⟨.negation, by decide⟩

theorem BinaryOp.ofKindName?_kind (op : BinaryOp) :
    BinaryOp.ofKindName? op.kind.name = some op := by
  cases op <;> decide

end Glass

namespace Glass.Grammar

theorem Literal.sound {length : Nat} {t : Token} {tree : Tree} (h : Literal t tree)
    (hfits : t.Fits length) : tree.Sound length := by
  cases h with
  | number hkind =>
      obtain ⟨x, hx⟩ := hfits.number hkind
      rw [hx]
      exact .number (Tree.placed_literal _ _ hfits)
  | string hkind =>
      obtain ⟨text, htext⟩ := hfits.string hkind
      rw [htext]
      exact .string (Tree.placed_literal _ _ hfits)
  | truth => exact .boolean (Tree.placed_literal _ _ hfits)
  | falsity => exact .boolean (Tree.placed_literal _ _ hfits)
  | void => exact .void (Tree.placed_literal _ _ hfits)

theorem Expression.sound {length level : Nat} {ts : List Token} {tree : Tree}
    (h : Expression level ts tree) (hfits : ∀ t ∈ ts, t.Fits length) : tree.Sound length := by
  induction h with
  | @operation level ts us op left right _ hop _ ihl ihr =>
      obtain ⟨binary, hbinary, _⟩ := mem_operators_iff.mp hop
      have hleft := ihl fun t member => hfits t (by simp [member])
      have hright := ihr fun t member => hfits t (by simp [member])
      have hname : (Tree.ofToken op).binaryOp? = some binary := by
        rw [Tree.ofToken, Tree.binaryOp?, ← BinaryOp.kind_of_ofKind? hbinary]
        exact binary.ofKindName?_kind
      exact .binaryOp (Tree.placed_spanning _ _ hleft.placed hright.placed) hname hleft hright
  | tighter _ _ ih => exact ih hfits
  | @signed op ts operand hop _ ih =>
      obtain ⟨hsign, hrest⟩ := List.forall_mem_cons.mp hfits
      have hoperand := ih hrest
      obtain ⟨unary, hname⟩ := UnaryOp.ofKindName?_of_mem_prefixes hop
      exact .unaryOp (Tree.placed_spanning _ _ (Tree.placed_ofToken hsign) hoperand.placed) hname
        hoperand
  | literal hliteral => exact hliteral.sound (hfits _ (by simp))
  | @name t =>
      have hplaced := Tree.placed_ofToken (hfits t (by simp))
      exact .identifier (Tree.placed_spanning _ _ hplaced hplaced)
  | emptyCall =>
      exact .functionCall (Tree.placed_spanning _ _ (Tree.placed_ofToken (hfits _ (by simp)))
        (Tree.placed_ofToken (hfits _ (by simp))))
  | call =>
      exact .functionCall (Tree.placed_spanning _ _ (Tree.placed_ofToken (hfits _ (by simp)))
        (Tree.placed_ofToken (hfits _ (by simp))))
  | group _ _ _ ih => exact ih fun t member => hfits t (by simp [member])

theorem Statement.sound {length : Nat} {ts : List Token} {tree : Tree} (h : Statement ts tree)
    (hfits : ∀ t ∈ ts, t.Fits length) : tree.Sound length := by
  cases h with
  | expression _ hexpression => exact hexpression.sound hfits
  | assignment htarget _ hvalue =>
      have hplaced := (htarget.expression.1.sound fun t member => hfits t (by simp [member])).placed
      have hplaced' := (hvalue.sound fun t member => hfits t (by simp [member])).placed
      exact .assignment (Tree.placed_spanning _ _ hplaced hplaced')

theorem mem_rowTokens {first : List Token} {more : List Item} {item : Item} {t : Token}
    (hitem : item ∈ more) (ht : t ∈ item.tokens) : t ∈ rowTokens first more := by
  rw [rowTokens, List.mem_append, List.mem_flatMap]
  exact Or.inr ⟨item, hitem, List.mem_cons_of_mem _ ht⟩

theorem sound_block {length : Nat} {statements : List Tree} (hne : statements ≠ [])
    (hsound : ∀ t ∈ statements, t.Sound length) : (Tree.block statements).Sound length := by
  obtain ⟨first, rest, rfl⟩ := List.exists_cons_of_ne_nil hne
  have hplaced := (hsound first (by simp)).placed
  have hplaced' := (hsound _ (List.getLast_mem hne)).placed
  rw [Tree.block, List.head?_cons, List.getLast?_eq_some_getLast hne]
  exact .block (Tree.placed_spanning _ _ hplaced hplaced') hsound

theorem sound_row {length : Nat} {ts : List Token} {first : Tree} {more : List Item}
    (hfirst : Statement ts first) (hitems : ∀ item ∈ more, Statement item.tokens item.tree)
    (hfits : ∀ t ∈ rowTokens ts more, t.Fits length) :
    (Tree.block (rowTrees first more)).Sound length := by
  refine sound_block (by simp [rowTrees]) (List.forall_mem_cons.mpr ⟨?_, ?_⟩)
  · exact hfirst.sound fun t member => hfits t (by simp [rowTokens, member])
  · intro tree member
    obtain ⟨item, hitem, rfl⟩ := List.mem_map.mp member
    exact (hitems item hitem).sound fun t ht => hfits t (mem_rowTokens hitem ht)

/-- Programs of fitting tokens have sound trees. -/
theorem Program.sound {length : Nat} {ts : List Token} {tree : Tree} (h : Program ts tree)
    (hfits : ∀ t ∈ ts, t.Fits length) : tree.Sound length := by
  cases h with
  | single hstatement => exact hstatement.sound hfits
  | row hfirst _ _ hitems => exact sound_row hfirst hitems hfits
  | closedRow hfirst _ hitems _ =>
      exact sound_row hfirst hitems fun t member => hfits t (by simp [member])

theorem height_ofToken (t : Token) : (Tree.ofToken t).height = 0 := by
  simp [Tree.ofToken, Tree.height]

theorem Literal.height_le {t : Token} {tree : Tree} (h : Literal t tree) : tree.height ≤ 1 := by
  have hpayload : t.payload.child.height = 0 := by
    cases t.payload <;> simp [Payload.child, Tree.height]
  cases h <;> simp [Tree.literal, Tree.height, Tree.heightOfAll, hpayload]

theorem length_item_lt {first : List Token} {more : List Item} {item : Item}
    (hitem : item ∈ more) (hfirst : first ≠ []) :
    item.tokens.length + 2 ≤ (rowTokens first more).length := by
  have hpositive := List.length_pos_iff.mpr hfirst
  obtain ⟨before, behind, rfl⟩ := List.append_of_mem hitem
  simp only [rowTokens, List.flatMap_append, List.flatMap_cons, List.length_append,
    List.length_cons]
  omega

/-- The trees of a row are no higher than the row has tokens. -/
theorem height_row {ts : List Token} {first : Tree} {more : List Item} (hts : ts ≠ [])
    (hfirst : first.height ≤ ts.length)
    (hmore : ∀ item ∈ more, item.tree.height ≤ item.tokens.length) :
    ∀ tree ∈ rowTrees first more, tree.height ≤ (rowTokens ts more).length := by
  refine List.forall_mem_cons.mpr ⟨?_, ?_⟩
  · exact Nat.le_trans hfirst (by simp [rowTokens])
  · intro tree member
    obtain ⟨item, hitem, rfl⟩ := List.mem_map.mp member
    have hlength := length_item_lt hitem hts
    exact Nat.le_trans (hmore item hitem) (by omega)

theorem Expression.ne_nil {level : Nat} {ts : List Token} {tree : Tree}
    (h : Expression level ts tree) : ts ≠ [] := by
  obtain ⟨first, rest, rfl, _⟩ := h.head
  exact List.cons_ne_nil first rest

theorem Expression.height_le {level : Nat} {ts : List Token} {tree : Tree}
    (h : Expression level ts tree) : tree.height ≤ ts.length := by
  induction h with
  | operation _ _ _ ihl ihr =>
      simp only [Tree.binaryOp, Tree.height_spanning, Tree.heightOfAll, height_ofToken,
        List.length_append, List.length_cons]
      omega
  | tighter _ _ ih => exact ih
  | signed _ _ ih =>
      simp only [Tree.unaryOp, Tree.height_spanning, Tree.heightOfAll, height_ofToken,
        List.length_cons]
      omega
  | literal hliteral => exact hliteral.height_le
  | name =>
      simp [Tree.identifier, Tree.height_spanning, Tree.heightOfAll, height_ofToken]
  | emptyCall =>
      simp [Tree.functionCall, Tree.height_spanning, Tree.heightOfAll, height_ofToken]
  | @call name opening closing ts first more _ _ hfirst _ _ _ ihfirst ihmore =>
      have hrow := Tree.heightOfAll_le (height_row hfirst.ne_nil ihfirst ihmore)
      simp only [Tree.functionCall, Tree.height_spanning, Tree.heightOfAll, height_ofToken,
        List.length_append, List.length_cons]
      omega
  | group _ _ _ ih =>
      simp only [List.length_append, List.length_cons]
      omega

theorem Statement.height_le {ts : List Token} {tree : Tree} (h : Statement ts tree) :
    tree.height ≤ ts.length := by
  cases h with
  | expression _ hexpression => exact hexpression.height_le
  | assignment htarget _ hvalue =>
      have htarget := htarget.expression.1.height_le
      have hvalue := hvalue.height_le
      simp only [Tree.assignment, Tree.height_spanning, Tree.heightOfAll, height_ofToken,
        List.length_append, List.length_cons]
      omega

theorem Statement.ne_nil {ts : List Token} {tree : Tree} (h : Statement ts tree) : ts ≠ [] := by
  cases h <;> simp

theorem height_block (statements : List Tree) :
    (Tree.block statements).height ≤ Tree.heightOfAll statements + 1 := by
  unfold Tree.block
  split
  · exact Nat.le_of_eq (Tree.height_spanning _ _ _ _)
  · simp [Tree.height, Tree.heightOfAll]

/-- A program's tree is no higher than the program has tokens. -/
theorem Program.height_le {ts : List Token} {tree : Tree} (h : Program ts tree) :
    tree.height ≤ ts.length := by
  cases h with
  | single hstatement => exact hstatement.height_le
  | @row ts first more hfirst hmore _ hitems =>
      -- The first semicolon of the row counts for the block.
      have hrow : ∀ tree ∈ rowTrees first more, tree.height + 1 ≤ (rowTokens ts more).length := by
        refine List.forall_mem_cons.mpr ⟨?_, ?_⟩
        · obtain ⟨item, rest, rfl⟩ := List.exists_cons_of_ne_nil hmore
          have hheight := hfirst.height_le
          simp only [rowTokens, List.flatMap_cons, List.length_append, List.length_cons]
          omega
        · intro tree member
          obtain ⟨item, hitem, rfl⟩ := List.mem_map.mp member
          have hheight := (hitems item hitem).height_le
          have hlength := length_item_lt hitem hfirst.ne_nil
          omega
      have hall := Tree.heightOfAll_le fun tree member => Nat.le_sub_of_add_le (hrow tree member)
      have hpositive := hrow first (by simp [rowTrees])
      have hblock := height_block (rowTrees first more)
      omega
  | closedRow hfirst _ hitems _ =>
      have hrow := Tree.heightOfAll_le
        (height_row hfirst.ne_nil hfirst.height_le fun item hitem => (hitems item hitem).height_le)
      rw [List.length_append, List.length_singleton]
      exact Nat.le_trans (height_block _) (Nat.succ_le_succ hrow)

end Glass.Grammar
