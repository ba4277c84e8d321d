import Glass.Proofs.PlacelessParsing
import Glass.Proofs.TokenLocality
import Glass.Proofs.TreePlaces

/-!
The text of a node is a text of its own. Without parentheses that only group, the tokens of a text
that a node reaches over are just those that it was derived from. On their own they are a statement
again, they nest no deeper than the whole text does, and cut out of the text they are the same
tokens. So the text under a node is parsed to that node, the places aside.
-/

namespace Glass

/-- Every opening parenthesis directly follows a name. -/
structure CallsOnly (ts : List Token) : Prop where
  head : ∀ t ∈ ts.head?, t.kind ≠ .symbol .leftParen
  follows : ts.IsChain fun t u => u.kind = .symbol .leftParen → t.kind = .identifier

instance (ts : List Token) : Decidable (CallsOnly ts) :=
  decidable_of_iff (_ ∧ _) ⟨fun h => ⟨h.1, h.2⟩, fun h => ⟨h.head, h.follows⟩⟩

namespace CallsOnly

variable {ts us : List Token}

theorem left (h : CallsOnly (ts ++ us)) : CallsOnly ts := by
  refine ⟨fun t member => h.head t ?_, h.follows.left_of_append⟩
  rw [List.head?_append, Option.mem_def.mp member]
  rfl

/-- A parenthesis that follows no name does not become the first one. -/
theorem behind {t : Token} (h : CallsOnly (ts ++ t :: us)) (ht : t.kind ≠ .identifier) :
    CallsOnly us := by
  obtain ⟨hhead, hchain⟩ := List.isChain_cons.mp (List.isChain_append.mp h.follows).2.1
  exact ⟨fun u member hopening => ht (hhead u member hopening), hchain⟩

end CallsOnly

theorem within_behind (ts : List Token) (t : Token) (us : List Token) : us <:+: ts ++ t :: us :=
  ⟨ts ++ [t], [], by simp⟩

namespace Tree

/-- The tree reaches from the first of the tokens to the last. -/
def Fills (ts : List Token) (t : Tree) : Prop :=
  ∃ first last, ∃ span : Span, ts.head? = some first ∧ ts.getLast? = some last ∧
    t.place? = some ⟨.ok span, first.line, first.column⟩ ∧
    span.start = first.span.start ∧ span.stop = last.span.stop

theorem fills_token {token : Token} {t : Tree}
    (h : t.place? = some ⟨.ok token.span, token.line, token.column⟩) : t.Fills [token] :=
  ⟨token, token, token.span, rfl, rfl, h, rfl, rfl⟩

theorem fills_ofToken (token : Token) : (ofToken token).Fills [token] := fills_token rfl

theorem fills_identifier (token : Token) : (identifier token).Fills [token] :=
  ⟨token, token, token.span.cover token.span, rfl, rfl, rfl, Nat.min_self _, Nat.max_self _⟩

theorem fills_spanning {ts us : List Token} (middle : List Token)
    (hts : InOrder (ts ++ (middle ++ us))) {first last : Tree} (hfirst : first.Fills ts)
    (hlast : last.Fills us) (label : Label) (children : List Tree) :
    (spanning label children first last).Fills (ts ++ (middle ++ us)) := by
  obtain ⟨opening, inner, s, hopening, hinner, hplace, hstart, hinnerStop⟩ := hfirst
  obtain ⟨inner', closing, u, hinner', hclosing, hplace', hinnerStart, hstop⟩ := hlast
  have hbefore : inner.span.stop ≤ inner'.span.start :=
    (List.pairwise_append.mp hts.ordered).2.2 inner (List.mem_of_getLast? hinner) inner'
      (List.mem_append_right _ (List.mem_of_head? hinner'))
  have hs := s.start_le_stop
  have hu := u.start_le_stop
  have hcover : (s.cover u).start = s.start ∧ (s.cover u).stop = u.stop :=
    ⟨Nat.min_eq_left (by omega), Nat.max_eq_right (by omega)⟩
  refine ⟨opening, closing, s.cover u, ?_, ?_,
    place?_spanning label children hplace (span?_of_place hplace'), hcover.1.trans hstart,
    hcover.2.trans hstop⟩
  · rw [List.head?_append, hopening]
    rfl
  · rw [List.getLast?_append, List.getLast?_append, hclosing]
    rfl

end Tree

open Grammar Parser.State

/-- Tokens in a row among `ts` are a statement with this tree, which reaches over them, and nest no
deeper than `nesting`. -/
def Tree.HasTokens (ts : List Token) (nesting : Nat) (t : Tree) : Prop :=
  ∃ us, us <:+: ts ∧ Statement us t ∧ t.Fills us ∧ (initial .program).peak us ≤ nesting

/-- So it is with every node of the tree that is no block. -/
def Tree.NodesHaveTokens (ts : List Token) (nesting : Nat) (t : Tree) : Prop :=
  ∀ node ∈ t.parts, ∀ label, node.label? = some label → label ≠ .block →
    node.HasTokens ts nesting

namespace Tree

variable {ts : List Token} {nesting : Nat}

theorem NodesHaveTokens.mono {us : List Token} {m : Nat} {t : Tree}
    (h : t.NodesHaveTokens us m) (hwithin : us <:+: ts) (hle : m ≤ nesting) :
    t.NodesHaveTokens ts nesting := by
  intro node member label hlabel hblock
  obtain ⟨own, hown, hstatement, hfills, hpeak⟩ := h node member label hlabel hblock
  exact ⟨own, hown.trans hwithin, hstatement, hfills, Nat.le_trans hpeak hle⟩

theorem nodesHaveTokens_ofToken (t : Token) : (ofToken t).NodesHaveTokens ts nesting := by
  intro node member label hlabel _
  obtain rfl := List.mem_singleton.mp member
  cases hlabel

theorem nodesHaveTokens_node {label : Label} {children : List Tree} {place : Option Place}
    (hself : label ≠ .block → (node label children place).HasTokens ts nesting)
    (hchildren : ∀ child ∈ children, child.NodesHaveTokens ts nesting) :
    (node label children place).NodesHaveTokens ts nesting := by
  rw [NodesHaveTokens, parts, List.forall_mem_cons]
  constructor
  · intro other hlabel hblock
    obtain rfl := Option.some.inj hlabel
    exact hself hblock
  · intro part member
    obtain ⟨child, hchild, hpart⟩ := mem_partsOfAll.mp member
    exact hchildren child hchild part hpart

theorem nodesHaveTokens_block {statements : List Tree}
    (h : ∀ statement ∈ statements, statement.NodesHaveTokens ts nesting) :
    (block statements).NodesHaveTokens ts nesting := by
  unfold block
  split
  · exact nodesHaveTokens_node (fun hlabel => absurd rfl hlabel) h
  · exact nodesHaveTokens_node (fun hlabel => absurd rfl hlabel) (List.forall_mem_nil _)

end Tree

namespace Parser.State

theorem peak_le_append (s : State) (ts us : List Token) : s.peak ts ≤ s.peak (ts ++ us) := by
  induction ts generalizing s with
  | nil => exact depth_le_peak s us
  | cons t ts ih =>
      rw [List.cons_append, peak, peak]
      split
      · rename_i next _
        exact max_le_max (Nat.le_refl _) (ih next)
      · exact Nat.le_refl _

/-- As a statement of a program, whatever stands before it, the tokens take the depth up to this. -/
def Rises (ts : List Token) (nesting : Nat) : Prop :=
  ∀ statements, State.peak { goal := .program, statements, phase := .start } ts = nesting

variable {ts us : List Token} {m n : Nat}

theorem Climbs.rises (h : Climbs 1 ts n) : Rises ts n := by
  intro statements
  rw [h _ (fresh_statement statements).ready]
  exact Nat.zero_add _

/-- Target and value of an assignment both start outside all brackets. -/
theorem rises_assignment {op : Token} {target : Tree} (htarget : Target ts target)
    (hop : op.kind.isAssignment = true) (hfirst : Climbs 1 ts m) (hsecond : Climbs 1 us n) :
    Rises (ts ++ op :: us) (max m n) := by
  intro statements
  obtain ⟨middle, next, hmoves, hassign, _, _, _, houter, hinner, hnext⟩ :=
    transition_of_target htarget hop (fresh_statement statements)
  have hdepth : next.depth = 0 := by
    rw [depth_of_signs (by rw [hinner]), houter]
    rfl
  have hstart : State.depth { goal := .program, statements, phase := .start } = 0 := rfl
  have hpeak := hfirst _ (fresh_statement statements).ready
  have hmiddle := hmoves.depth_le_peak
  rw [hpeak] at hmiddle
  rw [hmoves.peak_append, peak_cons hassign, hpeak, hsecond next hnext, hdepth]
  omega

end Parser.State

namespace Grammar

open Glass.Tree

/-- An expression is a statement, wherever it was found. -/
theorem Expression.hasTokens {level : Nat} {ts : List Token} {tree : Tree} {nesting : Nat}
    (h : Expression level ts tree) (hlevel : 1 ≤ level) (hfills : tree.Fills ts)
    (hclimbs : Climbs level ts nesting) : tree.HasTokens ts nesting :=
  ⟨ts, List.infix_refl ts, statement_of_expression (h.loosen hlevel), hfills,
    Nat.le_of_eq ((hclimbs.loosen hlevel).rises [])⟩

theorem Literal.fills {t : Token} {tree : Tree} (h : Literal t tree) : tree.Fills [t] := by
  cases h <;> exact fills_token rfl

theorem Literal.nodesHaveTokens {t : Token} {tree : Tree} (h : Literal t tree) :
    tree.NodesHaveTokens [t] 0 := by
  have hself := Expression.hasTokens (.literal h) (by decide) h.fills (Climbs.literal h)
  have hpayload : ∀ child ∈ [t.payload.child], child.NodesHaveTokens [t] 0 := by
    rw [List.forall_mem_singleton]
    cases t.payload <;> exact List.forall_mem_nil _
  have hflag (value : Bool) : ∀ child ∈ [Tree.flag value], child.NodesHaveTokens [t] 0 :=
    List.forall_mem_singleton.mpr (List.forall_mem_nil _)
  cases h with
  | number => exact nodesHaveTokens_node (fun _ => hself) hpayload
  | string => exact nodesHaveTokens_node (fun _ => hself) hpayload
  | truth => exact nodesHaveTokens_node (fun _ => hself) (hflag true)
  | falsity => exact nodesHaveTokens_node (fun _ => hself) (hflag false)
  | void => exact nodesHaveTokens_node (fun _ => hself) (List.forall_mem_nil _)

/-- The items of a row are found in it, and their parentheses follow names too. -/
theorem callsOnly_row {ts : List Token} {more : List Item} (h : CallsOnly (rowTokens ts more))
    (hseparators : ∀ item ∈ more, item.separator.kind ≠ .identifier) :
    CallsOnly ts ∧ ∀ item ∈ more, CallsOnly item.tokens ∧ item.tokens <:+: rowTokens ts more := by
  induction more generalizing ts with
  | nil => exact ⟨h.left, List.forall_mem_nil _⟩
  | cons item more ih =>
      obtain ⟨hseparator, hseparators⟩ := List.forall_mem_cons.mp hseparators
      rw [rowTokens_cons] at h ⊢
      obtain ⟨hitem, hmore⟩ := ih (h.behind hseparator) hseparators
      have hrest := within_behind ts item.separator (rowTokens item.tokens more)
      have hself : item.tokens <:+: rowTokens item.tokens more :=
        (List.prefix_append ..).isInfix
      refine ⟨h.left, List.forall_mem_cons.mpr ⟨⟨hitem, hself.trans hrest⟩, ?_⟩⟩
      intro other member
      exact ⟨(hmore other member).1, (hmore other member).2.trans hrest⟩

/-- The arguments behind the first one climb as far as the deepest of them. -/
theorem exists_climbsMore {more : List Item}
    (h : ∀ item ∈ more, ∃ nesting, Climbs 1 item.tokens nesting ∧
      item.tree.NodesHaveTokens item.tokens nesting) :
    ∃ nesting, ClimbsMore more nesting ∧
      ∀ item ∈ more, item.tree.NodesHaveTokens item.tokens nesting := by
  induction more with
  | nil => exact ⟨0, .nil, List.forall_mem_nil _⟩
  | cons item more ih =>
      obtain ⟨⟨m, hclimbs, hnodes⟩, hmore⟩ := List.forall_mem_cons.mp h
      obtain ⟨n, hclimbsMore, hnodesMore⟩ := ih hmore
      refine ⟨max m n, .cons hclimbs hclimbsMore, List.forall_mem_cons.mpr ⟨?_, ?_⟩⟩
      · exact hnodes.mono (List.infix_refl _) (Nat.le_max_left _ _)
      · intro other member
        exact (hnodesMore other member).mono (List.infix_refl _) (Nat.le_max_right _ _)

/-- Two trees and the operator between them. -/
theorem nodes_joined {ts us : List Token} {op : Token} {left right : Tree} {m n : Nat}
    (label : Label) (hts : InOrder (ts ++ op :: us))
    (hleft : left.Fills ts ∧ left.NodesHaveTokens ts m)
    (hright : right.Fills us ∧ right.NodesHaveTokens us n)
    (hself : (spanning label [.ofToken op, left, right] left right).Fills (ts ++ op :: us) →
      (spanning label [.ofToken op, left, right] left right).HasTokens (ts ++ op :: us)
        (max m n)) :
    (spanning label [.ofToken op, left, right] left right).Fills (ts ++ op :: us) ∧
    (spanning label [.ofToken op, left, right] left right).NodesHaveTokens (ts ++ op :: us)
      (max m n) := by
  have hfills := fills_spanning [op] hts hleft.1 hright.1 label [.ofToken op, left, right]
  have hfirst : ts <:+: ts ++ op :: us := (List.prefix_append ..).isInfix
  refine ⟨hfills, nodesHaveTokens_node (fun _ => hself hfills) ?_⟩
  simp only [List.forall_mem_cons]
  exact ⟨nodesHaveTokens_ofToken op, hleft.2.mono hfirst (Nat.le_max_left m n),
    hright.2.mono (within_behind ts op us) (Nat.le_max_right m n), List.forall_mem_nil _⟩

/-- A call between its name and its closing parenthesis. -/
theorem Expression.call_nodes {name opening closing : Token} {inner : List Token}
    {arguments : List Tree} {nesting : Nat}
    (h : Expression atomLevel (name :: opening :: (inner ++ [closing]))
      (.functionCall (.ofToken name) arguments (.ofToken closing)))
    (hts : InOrder (name :: opening :: (inner ++ [closing])))
    (hclimbs : Climbs atomLevel (name :: opening :: (inner ++ [closing])) (nesting + 18))
    (harguments : ∀ argument ∈ arguments, argument.NodesHaveTokens inner nesting) :
    (Tree.functionCall (.ofToken name) arguments (.ofToken closing)).Fills
      (name :: opening :: (inner ++ [closing])) ∧
    (Tree.functionCall (.ofToken name) arguments (.ofToken closing)).NodesHaveTokens
      (name :: opening :: (inner ++ [closing])) (nesting + 18) := by
  have hfills := fills_spanning (opening :: inner) hts (fills_ofToken name) (fills_ofToken closing)
    .functionCall (.ofToken name :: arguments)
  refine ⟨hfills, nodesHaveTokens_node (fun _ => h.hasTokens (by decide) hfills hclimbs) ?_⟩
  refine List.forall_mem_cons.mpr ⟨nodesHaveTokens_ofToken name, fun argument member => ?_⟩
  have hinner : inner <:+: name :: opening :: (inner ++ [closing]) :=
    ⟨[name, opening], [closing], rfl⟩
  exact (harguments argument member).mono hinner (Nat.le_add_right _ _)

/-- Every node of an expression without groups reaches over tokens of its own, and the expression
climbs at least as far as they do. -/
theorem Expression.nodes {level : Nat} {ts : List Token} {tree : Tree}
    (h : Expression level ts tree) (hts : InOrder ts) (hcalls : CallsOnly ts) :
    tree.Fills ts ∧ ∃ nesting, Climbs level ts nesting ∧ tree.NodesHaveTokens ts nesting := by
  induction h with
  | @operation level ts us op left right hleft hop hright ihl ihr =>
      have hname : op.kind ≠ .identifier := by
        intro hkind
        obtain ⟨binary, hbinary, _⟩ := mem_operators_iff.mp hop
        rw [hkind] at hbinary
        cases hbinary
      have hlevel : 1 ≤ level := by
        obtain ⟨binary, _, rfl⟩ := mem_operators_iff.mp hop
        exact binary.level_pos
      obtain ⟨hfillsl, m, hclimbsl, hnodesl⟩ :=
        ihl (hts.sublist (List.sublist_append_left ..)) hcalls.left
      obtain ⟨hfillsr, n, hclimbsr, hnodesr⟩ :=
        ihr (hts.sublist (within_behind ts op us).sublist) (hcalls.behind hname)
      have hclimbs := Climbs.operation hleft hop hclimbsl hclimbsr
      obtain ⟨hfills, hnodes⟩ := nodes_joined .binaryOp hts ⟨hfillsl, hnodesl⟩ ⟨hfillsr, hnodesr⟩
        fun hfills => Expression.hasTokens (.operation hleft hop hright) hlevel hfills hclimbs
      exact ⟨hfills, max m n, hclimbs, hnodes⟩
  | tighter _ _ ih =>
      obtain ⟨hfills, nesting, hclimbs, hnodes⟩ := ih hts hcalls
      exact ⟨hfills, nesting, hclimbs.loosen (Nat.le_succ _), hnodes⟩
  | @signed op ts operand hop hoperand ih =>
      have hname : op.kind ≠ .identifier := by
        intro hkind
        rw [hkind] at hop
        exact absurd hop (by decide)
      have hinner : ts <:+: op :: ts := (List.suffix_cons op ts).isInfix
      obtain ⟨hfillso, n, hclimbso, hnodeso⟩ :=
        ih (hts.sublist hinner.sublist) (@CallsOnly.behind [] ts op hcalls hname)
      have hfills := fills_spanning [] hts (fills_ofToken op) hfillso .unaryOp
        [.ofToken op, operand]
      have hclimbs := Climbs.signed hop hclimbso
      have hself := Expression.hasTokens (.signed hop hoperand) (by decide) hfills hclimbs
      refine ⟨hfills, n + 1, hclimbs, nodesHaveTokens_node (fun _ => hself) ?_⟩
      simp only [List.forall_mem_cons]
      exact ⟨nodesHaveTokens_ofToken op, hnodeso.mono hinner (Nat.le_succ n),
        List.forall_mem_nil _⟩
  | literal hliteral =>
      exact ⟨hliteral.fills, 0, Climbs.literal hliteral, hliteral.nodesHaveTokens⟩
  | @name t hname =>
      have hfills := fills_identifier t
      have hself := Expression.hasTokens (.name hname) (by decide) hfills (Climbs.name hname)
      refine ⟨hfills, 0, Climbs.name hname, nodesHaveTokens_node (fun _ => hself) ?_⟩
      exact List.forall_mem_singleton.mpr (nodesHaveTokens_ofToken t)
  | emptyCall hname hopening hclosing =>
      have hclimbs := Climbs.emptyCall hname hopening hclosing
      obtain ⟨hfills, hnodes⟩ := @Expression.call_nodes _ _ _ [] [] 0
        (.emptyCall hname hopening hclosing) hts hclimbs (List.forall_mem_nil _)
      exact ⟨hfills, 18, hclimbs, hnodes⟩
  | @call name opening closing ts first more hname hopening hfirst hcommas hitems hclosing ihfirst
      ihmore =>
      have hopens : opening.kind ≠ .identifier := by
        rw [hopening]
        decide
      obtain ⟨hcallsFirst, hcallsMore⟩ :=
        callsOnly_row (@CallsOnly.behind [name] _ opening hcalls hopens).left fun item member => by
          rw [hcommas item member]
          decide
      have hrow : rowTokens ts more <:+: name :: opening :: (rowTokens ts more ++ [closing]) :=
        ⟨[name, opening], [closing], rfl⟩
      have hstart : ts <:+: rowTokens ts more := (List.prefix_append ..).isInfix
      obtain ⟨_, m, hclimbsFirst, hnodesFirst⟩ :=
        ihfirst (hts.sublist (hstart.trans hrow).sublist) hcallsFirst
      obtain ⟨n, hclimbsMore, hnodesMore⟩ := exists_climbsMore fun item member =>
        (ihmore item member (hts.sublist ((hcallsMore item member).2.trans hrow).sublist)
          (hcallsMore item member).1).2
      have hclimbs :=
        Climbs.call hname hopening hfirst hcommas hitems hclosing hclimbsFirst hclimbsMore
      obtain ⟨hfills, hnodes⟩ := Expression.call_nodes
        (.call hname hopening hfirst hcommas hitems hclosing) hts hclimbs
        (List.forall_mem_cons.mpr ⟨hnodesFirst.mono hstart (Nat.le_max_left m n),
          List.forall_mem_map.mpr fun item member =>
            (hnodesMore item member).mono (hcallsMore item member).2 (Nat.le_max_right m n)⟩)
      exact ⟨hfills, max m n + 18, hclimbs, hnodes⟩
  | group hopening =>
      -- Its parenthesis comes first, so that it follows no name.
      exact absurd hopening (hcalls.head _ rfl)

theorem Statement.nodes {ts : List Token} {tree : Tree} (h : Statement ts tree) (hts : InOrder ts)
    (hcalls : CallsOnly ts) : ∃ nesting, Rises ts nesting ∧ tree.NodesHaveTokens ts nesting := by
  cases h with
  | expression _ hexpression =>
      obtain ⟨_, nesting, hclimbs, hnodes⟩ := hexpression.nodes hts hcalls
      exact ⟨nesting, hclimbs.rises, hnodes⟩
  | @assignment op ts us target value htarget hop hvalue =>
      have hname : op.kind ≠ .identifier := by
        intro hkind
        rw [hkind] at hop
        cases hop
      obtain ⟨hfillst, m, hclimbst, hnodest⟩ :=
        htarget.expression.1.nodes (hts.sublist (List.sublist_append_left ..)) hcalls.left
      obtain ⟨hfillsv, n, hclimbsv, hnodesv⟩ :=
        hvalue.nodes (hts.sublist (within_behind ts op us).sublist) (hcalls.behind hname)
      have hrises := rises_assignment htarget hop (hclimbst.loosen (by decide)) hclimbsv
      refine ⟨max m n, hrises, (nodes_joined .assignment hts ⟨hfillst, hnodest⟩ ⟨hfillsv, hnodesv⟩
        fun hfills => ?_).2⟩
      exact ⟨_, List.infix_refl _, .assignment htarget hop hvalue, hfills,
        Nat.le_of_eq (hrises [])⟩

/-- Every statement of a row starts at the depth that the row starts at. -/
theorem row_nodes {ts : List Token} {first : Tree} {more : List Item} (hfirst : Statement ts first)
    (hsemicolons : ∀ item ∈ more, item.separator.kind = .symbol .semicolon)
    (hitems : ∀ item ∈ more, Statement item.tokens item.tree) (hts : InOrder (rowTokens ts more))
    (hcalls : CallsOnly (rowTokens ts more)) (statements : List Tree) :
    ∀ tree ∈ rowTrees first more, tree.NodesHaveTokens (rowTokens ts more)
      (Parser.State.peak { goal := .program, statements, phase := .start }
        (rowTokens ts more)) := by
  induction more generalizing ts first statements with
  | nil =>
      rw [rowTokens, List.flatMap_nil, List.append_nil] at hts hcalls ⊢
      obtain ⟨n, hrises, hnodes⟩ := hfirst.nodes hts hcalls
      rw [hrises]
      exact List.forall_mem_singleton.mpr hnodes
  | cons item more ih =>
      obtain ⟨hsemicolon, hsemicolons⟩ := List.forall_mem_cons.mp hsemicolons
      obtain ⟨hitem, hitems⟩ := List.forall_mem_cons.mp hitems
      have hname : item.separator.kind ≠ .identifier := by
        rw [hsemicolon]
        decide
      rw [rowTokens_cons] at hts hcalls ⊢
      have hstart : ts <:+: ts ++ item.separator :: rowTokens item.tokens more :=
        (List.prefix_append ..).isInfix
      have hrest := within_behind ts item.separator (rowTokens item.tokens more)
      have hpeak := (@moves_semicolon _ _ _ statements hfirst hsemicolon).peak_append
        (rowTokens item.tokens more)
      rw [List.append_assoc, List.singleton_append] at hpeak
      refine List.forall_mem_cons.mpr ⟨?_, fun tree member => ?_⟩
      · obtain ⟨n, hrises, hnodes⟩ := hfirst.nodes (hts.sublist hstart.sublist) hcalls.left
        apply hnodes.mono hstart
        rw [← hrises statements]
        exact peak_le_append _ _ _
      · apply (ih hitem hsemicolons hitems (hts.sublist hrest.sublist) (hcalls.behind hname)
          (first :: statements) tree member).mono hrest
        rw [hpeak]
        exact Nat.le_max_right _ _

/-- Every node of a program without groups, but for a block, reaches over tokens of its own, which
nest no deeper than the program does. -/
theorem Program.nodes {ts : List Token} {tree : Tree} (h : Program ts tree) (hts : InOrder ts)
    (hcalls : CallsOnly ts) : tree.NodesHaveTokens ts ((initial .program).peak ts) := by
  cases h with
  | single hstatement =>
      obtain ⟨n, hrises, hnodes⟩ := hstatement.nodes hts hcalls
      exact hnodes.mono (List.infix_refl ts) (Nat.le_of_eq (hrises []).symm)
  | row hfirst _ hsemicolons hitems =>
      exact nodesHaveTokens_block (row_nodes hfirst hsemicolons hitems hts hcalls [])
  | @closedRow ts first more closing hfirst hsemicolons hitems _ =>
      have hrow : rowTokens ts more <:+: rowTokens ts more ++ [closing] :=
        (List.prefix_append ..).isInfix
      have hnodes := nodesHaveTokens_block
        (row_nodes hfirst hsemicolons hitems (hts.sublist hrow.sublist) hcalls.left [])
      exact hnodes.mono hrow (peak_le_append _ _ _)

end Grammar

/-- The text under a tree that reaches over tokens of the source has these tokens. -/
theorem Tree.Fills.content_slice {source : String} {us : List Token} {t : Tree} (h : t.Fills us)
    (hus : us <:+: tokenize source) (hflawless : ∀ u ∈ us, u.kind.isFlaw = false) :
    ∃ span, t.span = .ok (some span) ∧
      (tokenize (String.ofList (span.slice source.toList))).map Token.content =
        us.map Token.content := by
  obtain ⟨first, last, span, hfirst, hlast, hplace, hstart, hstop⟩ := h
  have hlexed := lexed_placedLexemes {} source.toList
  change Lexed {} source.toList (lexemesOf source) at hlexed
  -- The lexemes fall into three rows as the tokens do.
  obtain ⟨before, behind, hsplit⟩ := hus
  obtain ⟨front, rest, hlexemes, hfront, _⟩ := List.map_eq_append_iff.mp hsplit.symm
  obtain ⟨before', middle, rfl, _, rfl⟩ := List.map_eq_append_iff.mp hfront
  rw [hlexemes, List.append_assoc] at hlexed
  rw [List.head?_map, Option.map_eq_some_iff] at hfirst
  rw [List.getLast?_map, Option.map_eq_some_iff] at hlast
  obtain ⟨first, hfirst, rfl⟩ := hfirst
  obtain ⟨last, hlast, rfl⟩ := hlast
  have hrange : ∀ l ∈ middle, l.token.span = l.range := by
    intro l member
    have hcovers := (@Lexed.tiling _ _ _ hlexed [] rfl).2 l (by simp [member])
    apply hcovers.span_eq
    intro hkind
    have hflaw := hflawless _ (List.mem_map_of_mem member)
    rw [hkind] at hflaw
    cases hflaw
  obtain ⟨front, part, rest, htext, hpart, hpartStop, hmoved⟩ := hlexed.between hfirst hlast
  rw [hrange first (List.mem_of_head? hfirst)] at hstart
  rw [hrange last (List.mem_of_getLast? hlast)] at hstop
  have hslice : span.slice source.toList = part := by
    have hfrontLength : span.start = front.length := by
      rw [hstart, hpart]
      exact Nat.zero_add _
    have hpartLength : span.length = part.length := by
      rw [Span.length]
      omega
    rw [Span.slice, hfrontLength, hpartLength, htext, List.drop_left, List.take_left]
  refine ⟨span, ?_, ?_⟩
  · rw [Tree.span, hplace]
    rfl
  · rw [hslice, tokenize, lexemesOf, String.toList_ofList]
    exact map_content_of_moved hmoved

theorem peak_le_of_parseProgram {source : String} {filename : Option String} {limits : Limits}
    {tree : Tree} (h : parseProgram source filename limits = .ok tree) :
    (initial .program).peak (tokenize source) ≤ limits.nesting := by
  obtain ⟨last, hmoves, _⟩ := finishes_program (program_of_parseProgram h)
  apply Nat.le_of_not_lt
  intro hdeep
  have hrun := hmoves.run_tooDeep (Nat.zero_le _) hdeep []
  rw [List.append_nil] at hrun
  rw [parseProgram_of_run hrun] at h
  cases h

/-- A source is parsed to the tree of any tokens like its own, the places aside. -/
theorem parseProgram_of_content {source : String} {us : List Token} {tree : Tree} {limits : Limits}
    (hcontent : (tokenize source).map Token.content = us.map Token.content) (h : Program us tree)
    (hallowed : (initial .program).peak us ≤ limits.nesting) :
    ∃ parsed, (∀ filename, parseProgram source filename limits = .ok parsed) ∧
      parsed.unplaced = tree.unplaced := by
  obtain ⟨last, hmoves, hfinish⟩ := finishes_program h
  have hrun := hmoves.run_of_peak hallowed []
  rw [List.append_nil, Parser.State.run, hfinish] at hrun
  have hsame := outcomeAtOrigin_of_content limits.nesting .program hcontent
  rw [hrun] at hsame
  cases hresult : ((initial .program).run limits.nesting (tokenize source)).1 with
  | error fault =>
      rw [hresult] at hsame
      cases hsame
  | ok parsed =>
      rw [hresult] at hsame
      injection hsame with horigin
      exact ⟨parsed, fun _ => parseProgram_of_run hresult, Tree.unplaced_eq_of_atOrigin_eq horigin⟩

/-- The text under a node is parsed to that node. In a source that parses and has parentheses for
calls only, this holds of every node but a block, the places aside and with the same allowance. -/
theorem node_text_parses_to_node {source : String} {filename : Option String} {limits : Limits}
    {tree : Tree} (h : parseProgram source filename limits = .ok tree)
    (hcalls : CallsOnly (tokenize source)) :
    ∀ node ∈ tree.parts, ∀ label, node.label? = some label → label ≠ .block →
      ∃ span parsed, node.span = .ok (some span) ∧
        (∀ name, parseProgram (String.ofList (span.slice source.toList)) name limits = .ok parsed) ∧
        parsed.unplaced = node.unplaced := by
  intro node member label hlabel hblock
  have hnodes := (program_of_parseProgram h).nodes (inOrder_tokenize source) hcalls
  obtain ⟨us, hus, hstatement, hfills, hpeak⟩ := hnodes node member label hlabel hblock
  obtain ⟨span, hspan, hcontent⟩ :=
    hfills.content_slice hus fun u huser => (hstatement.kinds u huser).1
  obtain ⟨parsed, hparsed, hunplaced⟩ := parseProgram_of_content hcontent (.single hstatement)
    (Nat.le_trans hpeak (peak_le_of_parseProgram h))
  exact ⟨span, parsed, hspan, hparsed, hunplaced⟩

/-- Each node of two statements with nested calls, signs and a power, their block left out. -/
theorem node_text_parses_to_node_call :
    CallsOnly (tokenize "x = f(-a, b ** void); g()") ∧
    ∃ tree, parseProgram "x = f(-a, b ** void); g()" none {} = .ok tree ∧
      tree.parts.length = 18 ∧
      ∀ node ∈ tree.parts, ∀ label, node.label? = some label → label ≠ .block →
        ∃ span parsed, node.span = .ok (some span) ∧
          (∀ name, parseProgram (String.ofList (span.slice "x = f(-a, b ** void); g()".toList))
            name {} = .ok parsed) ∧
          parsed.unplaced = node.unplaced := by
  have hcalls : CallsOnly (tokenize "x = f(-a, b ** void); g()") := by decide +kernel
  have hparts : ((parseProgram "x = f(-a, b ** void); g()" none {}).toOption.map
      fun tree => tree.parts.length) = some 18 := by decide +kernel
  cases hparse : parseProgram "x = f(-a, b ** void); g()" none {} with
  | error failure =>
      rw [hparse] at hparts
      cases hparts
  | ok tree =>
      rw [hparse] at hparts
      exact ⟨hcalls, tree, rfl, Option.some.inj hparts, node_text_parses_to_node hparse hcalls⟩

end Glass
