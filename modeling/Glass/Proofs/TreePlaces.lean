import Mathlib.Data.List.Pairwise
import Glass.Proofs.LongestLexeme
import Glass.Proofs.RunOutcome
import Glass.Proofs.ScannerPlaces

/-!
Where the nodes of a tree stand. Each node and token of the tree of a text reaches from the start of
a token of the text to the end of one, and its line and column are those that a diagnostic with its
span names. The children of a node lie inside it, one behind the other, whatever parentheses, commas
and comments stand between them.
-/

namespace Glass

section Lines

variable {text : List Char} {offset start : Nat}

theorem LineStart.not_newline (h : LineStart text offset start) :
    ∀ c ∈ (text.take offset).drop start, c ≠ '\n' := by
  rintro c member rfl
  obtain ⟨i, hi⟩ := List.mem_iff_getElem?.mp member
  rw [List.getElem?_drop, List.getElem?_take] at hi
  split at hi
  next hlt => exact h.unbroken (start + i) (Nat.le_add_right start i) hlt hi
  next => cases hi

theorem LineStart.newline_before (h : LineStart text offset start)
    (hoffset : offset ≤ text.length) :
    ∀ c, (text.take start).reverse.head? = some c → c = '\n' := by
  intro c hc
  have hlength : (text.take start).length = start :=
    List.length_take_of_le (Nat.le_trans h.le hoffset)
  rw [List.head?_reverse, List.getLast?_eq_getElem?, hlength, List.getElem?_take] at hc
  split at hc
  next hlt =>
    rcases h.opens with hzero | hopens
    · exact absurd hlt (by omega)
    · rw [hopens] at hc
      exact (Option.some.inj hc).symm
  next => cases hc

/-- Looking back from an offset to the last line feed finds where its line starts. -/
theorem LineStart.lineView_start (h : LineStart text offset start)
    (hoffset : offset ≤ text.length) : (LineView.ofOffset text offset).start = start := by
  have hlength : (text.take offset).length = offset := List.length_take_of_le hoffset
  have hsplit := List.take_append_drop start (text.take offset)
  rw [List.take_take, Nat.min_eq_left h.le] at hsplit
  have hback : (text.take offset).reverse =
      ((text.take offset).drop start).reverse ++ (text.take start).reverse := by
    rw [← List.reverse_append, hsplit]
  have hline : (text.take offset).reverse.takeWhile (· != '\n') =
      ((text.take offset).drop start).reverse := by
    rw [hback]
    apply takeWhile_append_eq
    · intro c member
      simpa using h.not_newline c (List.mem_reverse.mp member)
    · intro c hc
      simp [h.newline_before hoffset c hc]
  have hle := h.le
  simp only [LineView.ofOffset, hline, List.length_reverse, List.length_drop, hlength]
  omega

/-- A diagnostic names the line and column that were counted on the way to its span. -/
theorem Position.Marks.reported {source : String} {p : Position} (h : p.Marks source.toList)
    {d : Diagnostic} {span : Span} (hsource : d.source = some source)
    (hspan : d.span = some span) (hstart : span.start = p.offset) :
    d.line? = some p.line ∧ d.column? = some p.column := by
  obtain ⟨start, hline, hcolumn⟩ := h.column_eq
  have hlocation : d.location? = some (source.toList, span) := by
    rw [Diagnostic.location?, hsource, hspan]
  constructor
  · simp only [Diagnostic.line?, hlocation, Option.map_some, hstart, h.line_eq, LineView.ofOffset,
      Nat.add_comm]
  · simp only [Diagnostic.column?, hlocation, Option.map_some, hstart,
      hline.lineView_start h.offset_le, hcolumn]

theorem tokenize_liesIn (source : String) : ∀ t ∈ tokenize source, t.LiesIn source.toList := by
  intro t member
  obtain ⟨l, hl, rfl⟩ := List.mem_map.mp member
  have hlexed := lexed_placedLexemes {} source.toList
  exact (hlexed.marks (Position.marks_start _) rfl l hl).2

end Lines

namespace Tree

mutual

/-- The nodes and tokens of a tree, itself included. The bare value of a literal is neither. -/
def parts : Tree → List Tree
  | .node label children place => .node label children place :: partsOfAll children
  | .token kindName spelling place => [.token kindName spelling place]
  | _ => []

def partsOfAll : List Tree → List Tree
  | [] => []
  | t :: rest => t.parts ++ partsOfAll rest

end

/-- The parts that a node is made of, in the order in which the text has them: an operator between
its operands, a sign or the name of a call in front of everything else. -/
inductive Row : Tree → List Tree → Prop where
  | token {kindName spelling : String} {place : Option Place} :
      Row (.token kindName spelling place) []
  | literal {label : Label} {children : List Tree} {place : Option Place} :
      label ∈ [.number, .string, .boolean, .void] → partsOfAll children = [] →
      Row (.node label children place) []
  | identifier {name : Token} {place : Option Place} :
      Row (.node .identifier [.ofToken name] place) [.ofToken name]
  | unaryOp {op : Token} {operand : Tree} {place : Option Place} :
      Row (.node .unaryOp [.ofToken op, operand] place) [.ofToken op, operand]
  | binaryOp {op : Token} {left right : Tree} {place : Option Place} :
      Row (.node .binaryOp [.ofToken op, left, right] place) [left, .ofToken op, right]
  | assignment {op : Token} {target value : Tree} {place : Option Place} :
      Row (.node .assignment [.ofToken op, target, value] place) [target, .ofToken op, value]
  | functionCall {name : Token} {arguments : List Tree} {place : Option Place} :
      Row (.node .functionCall (.ofToken name :: arguments) place) (.ofToken name :: arguments)
  | block {statements : List Tree} {place : Option Place} :
      Row (.node .block statements place) statements

/-- The first tree ends before the second starts. -/
def Before (a b : Tree) : Prop :=
  ∃ s t, a.span? = some s ∧ b.span? = some t ∧ s.stop ≤ t.start

def Inside (inner outer : Tree) : Prop :=
  ∃ s t, inner.span? = some s ∧ outer.span? = some t ∧ t.start ≤ s.start ∧ s.stop ≤ t.stop

/-- What a node is made of lies inside it, one part behind the other. -/
def Arranged (t : Tree) : Prop :=
  ∃ row, t.Row row ∧ row.Pairwise Before ∧ ∀ part ∈ row, part.Inside t

/-- The tree has this place, which starts and stops with tokens of the text, and diagnostics with
the same span name the same line and column. -/
structure StandsAt (source : String) (span : Span) (line column : Nat) (t : Tree) : Prop where
  place_eq : t.place? = some ⟨.ok span, line, column⟩
  nonempty : span.start < span.stop
  starts : ∃ first ∈ tokenize source, first.span.start = span.start
  stops : ∃ last ∈ tokenize source, last.span.stop = span.stop
  reported : ∀ d : Diagnostic, d.source = some source → d.span = some span →
    d.line? = some line ∧ d.column? = some column

theorem mem_partsOfAll {t : Tree} {trees : List Tree} :
    t ∈ partsOfAll trees ↔ ∃ child ∈ trees, t ∈ child.parts := by
  induction trees with
  | nil => simp [partsOfAll]
  | cons child trees ih => simp [partsOfAll, ih]

end Tree

/-- The tokens stand one behind the other, and none is empty. -/
structure InOrder (ts : List Token) : Prop where
  ordered : ts.Pairwise fun t u => t.span.stop ≤ u.span.start
  nonempty : ∀ t ∈ ts, t.span.start < t.span.stop

theorem InOrder.sublist {ts us : List Token} (h : InOrder us) (hsub : ts.Sublist us) :
    InOrder ts :=
  ⟨h.ordered.sublist hsub, fun t member => h.nonempty t (hsub.subset member)⟩

theorem inOrder_tokenize (source : String) : InOrder (tokenize source) := by
  obtain ⟨hordered, hbounds⟩ := (lexed_placedLexemes {} source.toList).ordered
  refine ⟨hordered, fun t member => ?_⟩
  obtain ⟨l, hl, rfl⟩ := List.mem_map.mp member
  exact (hbounds l hl).2

namespace Tree

/-- The tree stands where one of the tokens does, and reaches to the end of one. -/
def Reaches (ts : List Token) (t : Tree) : Prop :=
  ∃ first ∈ ts, ∃ last ∈ ts, ∃ span : Span,
    t.place? = some ⟨.ok span, first.line, first.column⟩ ∧
      span.start = first.span.start ∧ span.stop = last.span.stop ∧ span.start < span.stop

/-- So does every part of it, and each is arranged. -/
structure Stands (ts : List Token) (t : Tree) : Prop where
  reaches : t.Reaches ts
  parts : ∀ part ∈ t.parts, part.Reaches ts ∧ part.Arranged

theorem Reaches.mono {ts us : List Token} {t : Tree} (h : t.Reaches ts) (hsub : ts ⊆ us) :
    t.Reaches us := by
  obtain ⟨first, hfirst, last, hlast, hspan⟩ := h
  exact ⟨first, hsub hfirst, last, hsub hlast, hspan⟩

theorem Stands.mono {ts us : List Token} {t : Tree} (h : t.Stands ts) (hsub : ts ⊆ us) :
    t.Stands us :=
  ⟨h.reaches.mono hsub, fun part member =>
    ⟨(h.parts part member).1.mono hsub, (h.parts part member).2⟩⟩

theorem span?_of_place {t : Tree} {span : Span} {line column : Nat}
    (h : t.place? = some ⟨.ok span, line, column⟩) : t.span? = some span := by
  rw [span?, h]
  rfl

theorem Reaches.before {ts us : List Token} {a b : Tree} (ha : a.Reaches ts) (hb : b.Reaches us)
    (h : ∀ t ∈ ts, ∀ u ∈ us, t.span.stop ≤ u.span.start) : a.Before b := by
  obtain ⟨_, _, last, hlast, s, hplace, _, hstop, _⟩ := ha
  obtain ⟨first, hfirst, _, _, t, hplace', hstart, _, _⟩ := hb
  refine ⟨s, t, span?_of_place hplace, span?_of_place hplace', ?_⟩
  rw [hstop, hstart]
  exact h last hlast first hfirst

/-- The first tree neither starts nor ends behind the second. -/
def Precedes (a b : Tree) : Prop :=
  ∃ s t, a.span? = some s ∧ b.span? = some t ∧ s.start ≤ t.start ∧ s.stop ≤ t.stop

theorem Reaches.precedes_self {ts : List Token} {t : Tree} (h : t.Reaches ts) : t.Precedes t := by
  obtain ⟨_, _, _, _, span, hplace, _⟩ := h
  have hspan := span?_of_place hplace
  exact ⟨span, span, hspan, hspan, Nat.le_refl _, Nat.le_refl _⟩

theorem Before.precedes {a b : Tree} (h : a.Before b) : a.Precedes b := by
  obtain ⟨s, t, hs, ht, hle⟩ := h
  have hs' := s.start_le_stop
  have ht' := t.start_le_stop
  exact ⟨s, t, hs, ht, by omega, by omega⟩

theorem place?_spanning {first last : Tree} {s t : Span} {line column : Nat} (label : Label)
    (children : List Tree) (hfirst : first.place? = some ⟨.ok s, line, column⟩)
    (hlast : last.span? = some t) :
    (spanning label children first last).place? = some ⟨.ok (s.cover t), line, column⟩ := by
  rw [spanning, hfirst, span?_of_place hfirst, hlast]
  rfl

theorem inside_spanning {first t last : Tree} {ts : List Token} {label : Label}
    {children : List Tree} (hreaches : first.Reaches ts) (hfirst : first.Precedes t)
    (hlast : t.Precedes last) : t.Inside (spanning label children first last) := by
  obtain ⟨_, _, _, _, s, hplace, _⟩ := hreaches
  obtain ⟨s', inner, hs, hinner, hstart, _⟩ := hfirst
  obtain ⟨inner', u, hinner', hu, _, hstop⟩ := hlast
  obtain rfl : s = s' := Option.some.inj ((span?_of_place hplace).symm.trans hs)
  obtain rfl : inner = inner' := Option.some.inj (hinner.symm.trans hinner')
  have houter := span?_of_place (place?_spanning label children hplace hu)
  refine ⟨inner, s.cover u, hinner, houter, ?_, ?_⟩
  · exact Nat.le_trans (Nat.min_le_left _ _) hstart
  · exact Nat.le_trans hstop (Nat.le_max_right _ _)

theorem reaches_spanning {first last : Tree} {ts : List Token} {label : Label}
    {children : List Tree} (hfirst : first.Reaches ts) (hlast : last.Reaches ts)
    (hprecedes : first.Precedes last) : (spanning label children first last).Reaches ts := by
  obtain ⟨opening, hopening, _, _, s, hplace, hstart, _, hpositive⟩ := hfirst
  obtain ⟨_, _, closing, hclosing, u, hplace', _, hstop, _⟩ := hlast
  obtain ⟨s', u', hs, hu, hstarts, hstops⟩ := hprecedes
  obtain rfl : s = s' := Option.some.inj ((span?_of_place hplace).symm.trans hs)
  obtain rfl : u = u' := Option.some.inj ((span?_of_place hplace').symm.trans hu)
  have hcover : (s.cover u).start = s.start ∧ (s.cover u).stop = u.stop :=
    ⟨Nat.min_eq_left hstarts, Nat.max_eq_right hstops⟩
  refine ⟨opening, hopening, closing, hclosing, s.cover u,
    place?_spanning label children hplace hu, hcover.1.trans hstart, hcover.2.trans hstop, ?_⟩
  rw [hcover.1, hcover.2]
  exact Nat.lt_of_lt_of_le hpositive hstops

/-- Trees over segments of the tokens stand one behind the other. -/
theorem pairwise_before {segments : List (List Token × Tree)}
    (hts : InOrder (segments.flatMap Prod.fst))
    (hstands : ∀ segment ∈ segments, segment.2.Stands segment.1) :
    (segments.map Prod.snd).Pairwise Before := by
  rw [List.pairwise_map]
  apply (List.pairwise_flatMap.mp hts.ordered).2.imp_of_mem
  intro a b ha hb hbefore
  exact (hstands a ha).reaches.before (hstands b hb).reaches hbefore

/-- A node that reaches from the first to the last of the trees over segments of the tokens. What
the node is made of are these trees, or some of them. -/
theorem stands_spanning {ts : List Token} (hts : InOrder ts)
    (segments : List (List Token × Tree)) (hsub : (segments.flatMap Prod.fst).Sublist ts)
    (hstands : ∀ segment ∈ segments, InOrder segment.1 → segment.2.Stands segment.1)
    {first last : Tree} (hfirst : (segments.map Prod.snd).head? = some first)
    (hlast : (segments.map Prod.snd).getLast? = some last) {label : Label}
    {children row : List Tree} (hrow : ∀ place, Row (.node label children place) row)
    (hchildren : children ⊆ row) (hmade : row.Sublist (segments.map Prod.snd)) :
    (spanning label children first last).Stands ts := by
  have hsegments : ∀ segment ∈ segments, segment.2.Stands segment.1 := by
    intro segment member
    have hinside : segment.1.Sublist (segments.flatMap Prod.fst) :=
      List.sublist_flatten_of_mem (List.mem_map_of_mem member)
    exact hstands segment member (hts.sublist (hinside.trans hsub))
  have hbefore := pairwise_before (hts.sublist hsub) hsegments
  have hall : ∀ t ∈ segments.map Prod.snd, t.Stands ts := by
    intro t member
    obtain ⟨segment, hsegment, rfl⟩ := List.mem_map.mp member
    apply (hsegments segment hsegment).mono
    intro token htoken
    exact hsub.subset (List.mem_flatMap.mpr ⟨segment, hsegment, htoken⟩)
  -- A tree precedes itself, so that the first and the last one are no cases of their own.
  have hprecedes := hbefore.imp Before.precedes
  have hinner : ∀ t ∈ segments.map Prod.snd, first.Precedes t ∧ t.Precedes last := by
    intro t member
    have hne := List.ne_nil_of_mem member
    obtain rfl := (List.head_eq_iff_head?_eq_some hne).mpr hfirst
    obtain rfl := (List.getLast_eq_iff_getLast?_eq_some hne).mpr hlast
    constructor
    · exact hprecedes.rel_head_of_rel_head_head member
        (hall _ (List.head_mem hne)).reaches.precedes_self
    · exact hprecedes.rel_getLast_of_rel_getLast_getLast member
        (hall _ (List.getLast_mem hne)).reaches.precedes_self
  have hopening := (hall first (List.mem_of_head? hfirst)).reaches
  have hclosing := (hall last (List.mem_of_getLast? hlast)).reaches
  have hself : (spanning label children first last).Reaches ts :=
    reaches_spanning hopening hclosing (hinner first (List.mem_of_head? hfirst)).2
  refine ⟨hself, List.forall_mem_cons.mpr ⟨⟨hself, row, hrow _, hbefore.sublist hmade, ?_⟩, ?_⟩⟩
  · intro part member
    obtain ⟨hstart, hstop⟩ := hinner part (hmade.subset member)
    exact inside_spanning hopening hstart hstop
  · intro part member
    obtain ⟨child, hchild, hpart⟩ := mem_partsOfAll.mp member
    exact (hall child (hmade.subset (hchildren hchild))).parts part hpart

section
variable {t : Token}

theorem reaches_token {tree : Tree} (ht : InOrder [t])
    (hplace : tree.place? = some ⟨.ok t.span, t.line, t.column⟩) : tree.Reaches [t] :=
  ⟨t, List.mem_singleton_self t, t, List.mem_singleton_self t, t.span, hplace, rfl, rfl,
    ht.nonempty t (List.mem_singleton_self t)⟩

theorem stands_ofToken (ht : InOrder [t]) : (ofToken t).Stands [t] := by
  have hself : (ofToken t).Reaches [t] := reaches_token ht rfl
  refine ⟨hself, List.forall_mem_singleton.mpr ⟨hself, [], .token, .nil, ?_⟩⟩
  exact List.forall_mem_nil _

theorem stands_literal {label : Label} {children : List Tree} (ht : InOrder [t])
    (hlabel : label ∈ [.number, .string, .boolean, .void])
    (hchildren : partsOfAll children = []) : (literal label children t).Stands [t] := by
  have hself : (literal label children t).Reaches [t] := reaches_token ht rfl
  have hparts : (literal label children t).parts = [literal label children t] := by
    rw [literal, parts, hchildren]
  refine ⟨hself, ?_⟩
  rw [hparts]
  refine List.forall_mem_singleton.mpr ⟨hself, [], .literal hlabel hchildren, .nil, ?_⟩
  exact List.forall_mem_nil _

end

end Tree

namespace Grammar

open Glass.Tree

theorem Literal.stands {t : Token} {tree : Tree} (h : Literal t tree) (ht : InOrder [t]) :
    tree.Stands [t] := by
  have hpayload : partsOfAll [t.payload.child] = [] := by
    cases t.payload <;> rfl
  cases h with
  | number => exact stands_literal ht (by simp) hpayload
  | string => exact stands_literal ht (by simp) hpayload
  | truth => exact stands_literal ht (by simp) rfl
  | falsity => exact stands_literal ht (by simp) rfl
  | void => exact stands_literal ht (by simp) rfl

/-- The trees of a row, each with its tokens. -/
def rowSegments (ts : List Token) (first : Tree) (more : List Item) : List (List Token × Tree) :=
  (ts, first) :: more.map fun item => (item.tokens, item.tree)

theorem rowSegments_trees (ts : List Token) (first : Tree) (more : List Item) :
    (rowSegments ts first more).map Prod.snd = rowTrees first more := by
  simp [rowSegments, rowTrees]

theorem rowSegments_sublist (ts : List Token) (first : Tree) (more : List Item) :
    ((rowSegments ts first more).flatMap Prod.fst).Sublist (rowTokens ts more) := by
  rw [rowSegments, List.flatMap_cons, rowTokens, List.flatMap_map]
  apply List.Sublist.append_left
  induction more with
  | nil => exact .slnil
  | cons item more ih =>
      rw [List.flatMap_cons, List.flatMap_cons]
      exact (List.sublist_cons_self _ _).append ih

theorem rowSegments_stands {ts : List Token} {first : Tree} {more : List Item}
    (hfirst : InOrder ts → first.Stands ts)
    (hmore : ∀ item ∈ more, InOrder item.tokens → item.tree.Stands item.tokens) :
    ∀ segment ∈ rowSegments ts first more, InOrder segment.1 → segment.2.Stands segment.1 :=
  List.forall_mem_cons.mpr ⟨hfirst, List.forall_mem_map.mpr hmore⟩

/-- An operator stands between the trees it joins. -/
theorem stands_joined {ts us : List Token} {op : Token} {left right : Tree} {label : Label}
    (hts : InOrder (ts ++ op :: us)) (hleft : InOrder ts → left.Stands ts)
    (hright : InOrder us → right.Stands us)
    (hrow : ∀ place, Row (.node label [.ofToken op, left, right] place)
      [left, .ofToken op, right]) :
    (spanning label [.ofToken op, left, right] left right).Stands (ts ++ op :: us) := by
  apply stands_spanning hts [(ts, left), ([op], .ofToken op), (us, right)]
  · simp
  · simpa using ⟨hleft, stands_ofToken, hright⟩
  · rfl
  · rfl
  · exact hrow
  · simp
  · simp

theorem stands_signed {ts : List Token} {op : Token} {operand : Tree} (hts : InOrder (op :: ts))
    (hoperand : InOrder ts → operand.Stands ts) :
    (Tree.unaryOp (.ofToken op) operand).Stands (op :: ts) := by
  apply stands_spanning hts [([op], .ofToken op), (ts, operand)]
  · simp
  · simpa using ⟨stands_ofToken, hoperand⟩
  · rfl
  · rfl
  · exact fun _ => .unaryOp
  · simp
  · simp

theorem stands_identifier {t : Token} (ht : InOrder [t]) : (Tree.identifier t).Stands [t] := by
  rw [Tree.identifier]
  apply stands_spanning ht [([t], .ofToken t)]
  · simp
  · simpa using stands_ofToken
  · rfl
  · rfl
  · exact fun _ => .identifier
  · simp
  · simp

/-- A call reaches up to its closing parenthesis, which is no part of it. -/
theorem stands_call {name opening closing : Token} {ts : List Token}
    {segments : List (List Token × Tree)} (hts : InOrder (name :: opening :: (ts ++ [closing])))
    (hsub : (segments.flatMap Prod.fst).Sublist ts)
    (hstands : ∀ segment ∈ segments, InOrder segment.1 → segment.2.Stands segment.1) :
    (Tree.functionCall (.ofToken name) (segments.map Prod.snd) (.ofToken closing)).Stands
      (name :: opening :: (ts ++ [closing])) := by
  apply stands_spanning hts
    (([name], .ofToken name) :: segments ++ [([closing], .ofToken closing)])
  · simpa using List.Sublist.cons opening (hsub.append_right [closing])
  · simp only [List.forall_mem_cons, List.forall_mem_append]
    exact ⟨⟨stands_ofToken, hstands⟩, stands_ofToken, List.forall_mem_nil _⟩
  · rfl
  · rw [List.map_append]
    exact List.getLast?_concat
  · exact fun _ => .functionCall
  · exact List.Subset.refl _
  · simp

/-- The tree of an expression stands where the expression's tokens do. -/
theorem Expression.stands {level : Nat} {ts : List Token} {tree : Tree}
    (h : Expression level ts tree) (hts : InOrder ts) : tree.Stands ts := by
  induction h with
  | operation _ _ _ ihl ihr => exact stands_joined hts ihl ihr fun _ => .binaryOp
  | tighter _ _ ih => exact ih hts
  | signed _ _ ih => exact stands_signed hts ih
  | literal hliteral => exact hliteral.stands hts
  | name => exact stands_identifier hts
  | @emptyCall name opening closing =>
      exact @stands_call name opening closing [] [] hts (.refl _) (List.forall_mem_nil _)
  | @call name opening closing ts first more _ _ _ _ _ _ ihfirst ihmore =>
      rw [← rowSegments_trees ts first more]
      exact stands_call hts (rowSegments_sublist ts first more) (rowSegments_stands ihfirst ihmore)
  | @group opening closing ts tree _ _ _ ih =>
      have hinside : ts.Sublist (opening :: (ts ++ [closing])) :=
        .cons opening (List.sublist_append_left ts [closing])
      exact (ih (hts.sublist hinside)).mono hinside.subset

theorem Statement.stands {ts : List Token} {tree : Tree} (h : Statement ts tree)
    (hts : InOrder ts) : tree.Stands ts := by
  cases h with
  | expression _ hexpression => exact hexpression.stands hts
  | assignment htarget _ hvalue =>
      exact stands_joined hts htarget.expression.1.stands hvalue.stands fun _ => .assignment

/-- A block reaches from its first statement to its last, a semicolon behind that one left out. -/
theorem stands_block {ts us : List Token} {first : Tree} {more : List Item} (hus : InOrder us)
    (hsub : (rowTokens ts more).Sublist us) (hfirst : Statement ts first)
    (hmore : ∀ item ∈ more, Statement item.tokens item.tree) :
    (Tree.block (rowTrees first more)).Stands us := by
  have hne : rowTrees first more ≠ [] := List.cons_ne_nil _ _
  have hblock : Tree.block (rowTrees first more) =
      spanning .block (rowTrees first more) first ((rowTrees first more).getLast hne) := by
    rw [Tree.block, List.getLast?_eq_some_getLast hne]
    rfl
  rw [hblock]
  apply stands_spanning hus (rowSegments ts first more)
  · exact (rowSegments_sublist ts first more).trans hsub
  · exact rowSegments_stands hfirst.stands fun item member => (hmore item member).stands
  · rfl
  · rw [rowSegments_trees, List.getLast?_eq_some_getLast hne]
  · exact fun _ => .block
  · exact List.Subset.refl _
  · simp only [rowSegments_trees, List.Sublist.refl]

theorem Program.stands {ts : List Token} {tree : Tree} (h : Program ts tree) (hts : InOrder ts) :
    tree.Stands ts := by
  cases h with
  | single hstatement => exact hstatement.stands hts
  | row hfirst _ _ hmore => exact stands_block hts (.refl _) hfirst hmore
  | closedRow hfirst _ hmore _ =>
      exact stands_block hts (List.sublist_append_left _ _) hfirst hmore

end Grammar

theorem Tree.Reaches.standsAt {source : String} {t : Tree} (h : t.Reaches (tokenize source)) :
    ∃ span line column, t.StandsAt source span line column := by
  obtain ⟨first, hfirst, last, hlast, span, hplace, hstart, hstop, hpositive⟩ := h
  have hmarks := (tokenize_liesIn source first hfirst).start_marks
  refine ⟨span, first.line, first.column, hplace, hpositive, ⟨first, hfirst, hstart.symm⟩,
    ⟨last, hlast, hstop.symm⟩, ?_⟩
  intro d hsource hspan
  exact hmarks.reported hsource hspan hstart

/-- Every node and token of the tree of a text has a place, which reaches from the start of a token
to the end of one and whose line and column are those that a diagnostic there names; and what it is
made of lies inside it, one part behind the other. -/
theorem parsed_tree_stands_in_text (source : String) (filename : Option String) (limits : Limits)
    (tree : Tree) (h : parseProgram source filename limits = .ok tree) :
    ∀ part ∈ tree.parts,
      (∃ span line column, part.StandsAt source span line column) ∧ part.Arranged := by
  intro part member
  have hstands := (program_of_parseProgram h).stands (inOrder_tokenize source)
  obtain ⟨hreaches, harranged⟩ := hstands.parts part member
  exact ⟨hreaches.standsAt, harranged⟩

/-- Parentheses, a line feed and a comment between them leave the parts in order. -/
theorem parsed_tree_stands_in_text_call :
    ∃ tree, parseProgram "x = (not y) // no\n; f((x), void)" none {} = .ok tree ∧
      tree.parts.length = 14 ∧ ∀ part ∈ tree.parts,
        (∃ span line column, part.StandsAt "x = (not y) // no\n; f((x), void)" span line column) ∧
          part.Arranged := by
  have hparts : ((parseProgram "x = (not y) // no\n; f((x), void)" none {}).toOption.map
      fun tree => tree.parts.length) = some 14 := by decide +kernel
  cases hparse : parseProgram "x = (not y) // no\n; f((x), void)" none {} with
  | error failure =>
      rw [hparse] at hparts
      cases hparts
  | ok tree =>
      rw [hparse] at hparts
      exact ⟨tree, rfl, Option.some.inj hparts, parsed_tree_stands_in_text _ none {} tree hparse⟩

end Glass
