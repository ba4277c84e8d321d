import Mathlib.Data.List.Forall2
import Glass.Proofs.ResolvedNames
import Glass.Proofs.StrictEvaluation

/-!
Replacing a node by a name for its value. Evaluation goes down through operations and blocks only, and
takes from each node below nothing but its outcome. So a node that has a value can give way to a name
that is bound to this value and stands nowhere else: the whole comes to the same value, or to the same
failure at the same place.
-/

namespace Glass

/-- The labels of the nodes that evaluation looks below. -/
def Label.evaluated : List Label := [.unaryOp, .binaryOp, .block]

/-- The second tree is the first with `new` in place of one `old` that evaluation comes to. All other
nodes stay where they are. -/
inductive Tree.Replaced (old new : Tree) : Tree → Tree → Prop where
  | here : Replaced old new old new
  | inside {label : Label} {front back : List Tree} {child child' : Tree} {place : Option Place} :
      label ∈ Label.evaluated → Replaced old new child child' →
      Replaced old new (.node label (front ++ child :: back) place)
        (.node label (front ++ child' :: back) place)

/-- What a node above can tell of a tree in one scope is the same of another tree in another scope,
unless the nesting is too deep. -/
structure StandsFor (scope other : Scope) (t t' : Tree) : Prop where
  unary : t.unaryOp? = t'.unaryOp?
  binary : t.binaryOp? = t'.binaryOp?
  outcome : ∀ room, Persists (t.eval scope room) (t'.eval other room)

section
variable {scope other : Scope}

theorem Scope.AgreeOn.standsFor {t : Tree} (h : scope.AgreeOn t.names other) :
    StandsFor scope other t t :=
  ⟨rfl, rfl, fun room => Or.inr (Tree.eval_congr room h).symm⟩

theorem Persists.forM_forall₂ {room : Nat} {children children' : List Tree}
    (h : List.Forall₂ (StandsFor scope other) children children') :
    Persists (children.forM fun child => discard (child.eval scope room))
      (children'.forM fun child => discard (child.eval other room)) := by
  induction h with
  | nil => exact .refl _
  | cons hchild _ ih => exact (hchild.outcome room).discarded.bind fun _ => ih

theorem evalNode_standsFor {label : Label} (hlabel : label ∈ Label.evaluated) {room : Nat}
    {children children' : List Tree} {place : Option Place}
    (h : List.Forall₂ (StandsFor scope other) children children') :
    Persists (evalNode scope (Tree.eval scope room) (.node label children place))
      (evalNode other (Tree.eval other room) (.node label children' place)) := by
  simp only [Label.evaluated, List.mem_cons, List.not_mem_nil, or_false] at hlabel
  rcases hlabel with rfl | rfl | rfl
  · rcases h with _ | @⟨op, _, _, _, hop, _ | ⟨hoperand, _ | _⟩⟩
    case cons.cons.nil =>
      simp only [evalNode, ← hop.unary]
      cases op.unaryOp? with
      | none => exact .refl _
      | some op => exact (hoperand.outcome room).bind fun _ => .refl _
    all_goals exact .refl _
  · rcases h with _ | @⟨op, _, _, _, hop, _ | ⟨hleft, _ | ⟨hright, _ | _⟩⟩⟩
    case cons.cons.cons.nil =>
      simp only [evalNode, ← hop.binary]
      cases op.binaryOp? with
      | none => exact .refl _
      | some op =>
          exact (hleft.outcome room).bind fun _ => (hright.outcome room).bind fun _ => .refl _
    all_goals exact .refl _
  · exact (Persists.forM_forall₂ h).bind fun _ => .refl _

theorem standsFor_node (hsource : scope.source = other.source)
    (hfilename : scope.filename = other.filename) {label : Label}
    (hlabel : label ∈ Label.evaluated) {children children' : List Tree} (place : Option Place)
    (h : List.Forall₂ (StandsFor scope other) children children') :
    StandsFor scope other (.node label children place) (.node label children' place) := by
  refine ⟨rfl, rfl, fun room => ?_⟩
  cases room with
  | zero => exact Or.inl rfl
  | succ room =>
      rw [Tree.eval, Tree.eval, ← Failure.locate_congr hsource hfilename rfl]
      exact (evalNode_standsFor hlabel h).locate scope _

/-- What stands for a part makes the whole stand for the whole. -/
theorem Tree.Replaced.standsFor {old new t t' : Tree} (h : Replaced old new t t')
    (hold : StandsFor scope other old new) (hscope : scope.AgreeOn t.names other) :
    StandsFor scope other t t' := by
  induction h with
  | here => exact hold
  | @inside label front back child child' place hlabel _ ih =>
      have hchildren : ∀ sibling ∈ front ++ child :: back, scope.AgreeOn sibling.names other :=
        fun sibling hsibling => hscope.mono fun name => mem_names_of_child hsibling
      obtain ⟨hfront, hrest⟩ := List.forall_mem_append.mp hchildren
      obtain ⟨hchild, hback⟩ := List.forall_mem_cons.mp hrest
      refine standsFor_node hscope.source hscope.filename hlabel place ?_
      exact List.rel_append (List.forall₂_same.mpr fun t ht => (hfront t ht).standsFor)
        (.cons (ih hchild) (List.forall₂_same.mpr fun t ht => (hback t ht).standsFor))

theorem Tree.eval_tooDeep_or_eq {t : Tree} {enough : Nat} {a : Operand}
    (h : t.eval scope enough = .ok a) (room : Nat) :
    t.eval scope room = .error .tooDeep ∨ t.eval scope room = .ok a := by
  rcases Nat.le_total room enough with hle | hle
  · obtain ⟨more, rfl⟩ := Nat.exists_eq_add_of_le hle
    exact (Tree.eval_persists scope room more t).imp_right fun hmore => hmore.symm.trans h
  · obtain ⟨more, rfl⟩ := Nat.exists_eq_add_of_le hle
    rcases Tree.eval_persists scope enough more t with hdeep | hmore
    · rw [h] at hdeep
      cases hdeep
    · exact Or.inr (hmore.trans h)

/-- Only a node has a value, so that it names no operator. -/
theorem Tree.exists_node_of_eval {t : Tree} {room : Nat} {a : Operand}
    (h : t.eval scope room = .ok a) :
    ∃ label children place, t = .node label children place := by
  cases t with
  | node label children place => exact ⟨label, children, place, rfl⟩
  | token | number | text | flag => cases room <;> cases h

theorem standsFor_identifier {old : Tree} {enough : Nat} {v : Value}
    (hv : old.eval scope enough = .ok v) {x : String} (hx : other.find? x = some v)
    (kindName : String) (tokenPlace place : Option Place) :
    StandsFor scope other old (.node .identifier [.token kindName x tokenPlace] place) := by
  obtain ⟨label, children, oldPlace, rfl⟩ := Tree.exists_node_of_eval hv
  refine ⟨rfl, rfl, fun room => ?_⟩
  refine (Tree.eval_tooDeep_or_eq hv room).imp_right fun hvalue => ?_
  cases room with
  | zero => cases hvalue
  | succ room =>
      have hfound : evalNode other (Tree.eval other room)
          (.node .identifier [.token kindName x tokenPlace] place) = .ok v := by
        simp only [evalNode, firstChild, Tree.toName, bind, Except.bind, hx]
      rw [hvalue, Tree.eval, hfound]
      rfl

end

/-- The scope `extended` is `scope` with the name bound to the value. -/
structure Scope.Binds (scope : Scope) (name : String) (value : Value) (extended : Scope) : Prop where
  source : scope.source = extended.source
  filename : scope.filename = extended.filename
  find : ∀ other, extended.find? other = if other = name then some value else scope.find? other

theorem Scope.Binds.agreeOn {scope extended : Scope} {name : String} {value : Value}
    (h : scope.Binds name value extended) {asked : List String} (hname : name ∉ asked) :
    scope.AgreeOn asked extended := by
  refine ⟨h.source, h.filename, fun other hother => ?_⟩
  have hne : other ≠ name := fun hsame => hname (hsame ▸ hother)
  rw [h.find, if_neg hne]

/-- A name for the value of a node does in the extended scope what the node does. -/
theorem Scope.Binds.replaced {scope extended : Scope} {x : String} {v : Value}
    (h : scope.Binds x v extended) {t t' old : Tree} {kindName : String}
    {tokenPlace place : Option Place} {enough : Nat}
    (hreplaced : Tree.Replaced old (.node .identifier [.token kindName x tokenPlace] place) t t')
    (hx : x ∉ t.names) (hv : old.eval scope enough = .ok v) (room : Nat) :
    Persists (t.eval scope room) (t'.eval extended room) := by
  have hfound : extended.find? x = some v := by rw [h.find, if_pos rfl]
  have hold := standsFor_identifier hv hfound kindName tokenPlace place
  exact (hreplaced.standsFor hold (h.agreeOn hx)).outcome room

namespace Store

theorem Chain.modify {s : Store} (hs : s.Rooted) {i : Nat} {f : Frame} {outer : List Frame}
    (h : s.Chain i (f :: outer)) {change : Frame → Frame} (hchange : (change f).parent = f.parent) :
    (s.modify i change).Chain i (change f :: outer) := by
  have hgiven : (s.modify i change).get? i = some (change f) := by
    rw [get?_modify, if_pos rfl, h.get?_eq]
    rfl
  cases h with
  | root hget hparent => exact .root hgiven (hchange.trans hparent)
  | @child _ parent _ _ hget hparent houter =>
      refine .child hgiven (hchange.trans hparent) (houter.congr hs fun j hj => ?_)
      have hlt : parent < i := hs i f parent hget hparent
      rw [get?_modify, if_neg (by omega)]

/-- Giving a frame a binding binds the name for what is run there. -/
theorem binds_modify {s : Store} (hs : s.Rooted) {i : Nat} {f : Frame} {outer : List Frame}
    (h : s.Chain i (f :: outer)) (x : String) (v : Value) :
    (s.scope i).Binds x v ((s.modify i (·.update none none [(x, v)])).scope i) := by
  have hrooted : (s.modify i (·.update none none [(x, v)])).Rooted := hs.modify i fun _ => rfl
  have hchain : (s.modify i (·.update none none [(x, v)])).Chain i
      (f.update none none [(x, v)] :: outer) := h.modify hs rfl
  refine ⟨?_, ?_, fun other => ?_⟩
  · rw [scope_eq h.get?_eq, scope_eq hchain.get?_eq]
    rfl
  · rw [scope_eq h.get?_eq, scope_eq hchain.get?_eq]
    rfl
  · have hgiven : Entries.get? (f.update none none [(x, v)]).bindings other =
        if other = x then some v else Entries.get? f.bindings other :=
      Entries.get?_insert f.bindings x other v
    rw [hchain.find?_eq hrooted, h.find?_eq hs, List.findSome?_cons, List.findSome?_cons, hgiven]
    by_cases hother : other = x <;> simp only [hother, if_true, if_false]

/-- A frame built on another binds its name and sees the rest through the other. -/
theorem binds_push {s : Store} (hs : s.Rooted) {i : Nat} {f : Frame} {outer : List Frame}
    (h : s.Chain i (f :: outer)) (x : String) (v : Value) :
    (s.scope i).Binds x v
      ((s.push { parent := some i, bindings := [(x, v)] }).scope s.frames.length) := by
  have hi := lt_of_get? h.get?_eq
  generalize hinner : ({ parent := some i, bindings := [(x, v)] } : Frame) = inner
  have hparent : (s.inherited inner).parent = some i := by rw [← hinner]; rfl
  have hrooted : (s.push inner).Rooted := by
    refine hs.push fun parent hp => ?_
    cases hparent.symm.trans hp
    exact hi
  have hget : (s.push inner).get? s.frames.length = some (s.inherited inner) := by
    rw [get?_push, if_pos rfl]
  have hchain : (s.push inner).Chain s.frames.length (s.inherited inner :: f :: outer) :=
    .child hget hparent (h.congr hs fun j hj => get?_push_of_lt inner (Nat.lt_of_le_of_lt hj hi))
  subst hinner
  refine ⟨?_, ?_, fun other => ?_⟩
  · rw [scope_eq h.get?_eq, scope_eq hget, inherited, Option.bind_some, h.get?_eq]
    rfl
  · rw [scope_eq h.get?_eq, scope_eq hget, inherited, Option.bind_some, h.get?_eq]
    rfl
  · have hgiven : Entries.get? [(x, v)] other = if other = x then some v else none :=
      Entries.get?_cons [] x other v
    rw [hchain.find?_eq hrooted, h.find?_eq hs, List.findSome?_cons]
    simp only [inherited, hgiven]
    by_cases hother : other = x <;> simp only [hother, if_true, if_false]

/-- A name can stand for a node's value. Let a node that evaluation comes to have a value in a frame,
and let a name that stands nowhere in the tree take its place and be bound to the value, in the frame
itself or in a frame built on it. Then the tree comes to the same value or to the same failure, unless
it nests too deeply. A parsed tree whose nodes lie no deeper than the room never does. -/
theorem value_stands_for_its_node {s : Store} (hs : s.Rooted) {i : Nat} {f : Frame}
    (hf : s.get? i = some f) {t t' old : Tree} {x kindName : String} {tokenPlace : Option Place}
    (hreplaced :
      Tree.Replaced old (.node .identifier [.token kindName x tokenPlace] old.place?) t t')
    (hx : x ∉ t.names) {v : Value} {enough : Nat} (hv : old.eval (s.scope i) enough = .ok v)
    (room : Nat) :
    (t.eval (s.scope i) room ≠ .error .tooDeep →
      t'.eval ((s.modify i (·.update none none [(x, v)])).scope i) room =
        t.eval (s.scope i) room ∧
      t'.eval ((s.push { parent := some i, bindings := [(x, v)] }).scope s.frames.length) room =
        t.eval (s.scope i) room) ∧
    ∀ text filename limits source, parseProgram text filename limits = .ok t →
      f.source = some source → t.height ≤ room → t.eval (s.scope i) room ≠ .error .tooDeep := by
  obtain ⟨chain, hchain⟩ := exists_chain hs (lt_of_get? hf)
  obtain ⟨outer, rfl⟩ : ∃ outer, chain = f :: outer := hchain.exists_eq_cons hf
  refine ⟨fun hroom => ⟨?_, ?_⟩, ?_⟩
  · exact ((binds_modify hs hchain x v).replaced hreplaced hx hv room).resolve_left hroom
  · exact ((binds_push hs hchain x v).replaced hreplaced hx hv room).resolve_left hroom
  · intro text filename limits source hparse hsource hheight hdeep
    have hscope : (s.scope i).source = some source := by rw [scope_eq hf, hsource]
    have hstrict := strict_of_sound hscope (parseProgram_eq_ok hparse).1 (Nat.le_refl room)
    generalize t.visited = nodes at hstrict
    rw [hdeep] at hstrict
    cases hstrict with
    | tooDeep hlt => omega

/-- The failure behind the node that was replaced keeps its place. -/
theorem value_stands_for_its_node_statement :
    let s : Store := ({} : Store).push { bindings := [("a", .boolean true)], source := some "not a;b" }
    let first : Token := ⟨.keyword .notWord, .text "not", ⟨0, 3, by omega⟩, 1, 1⟩
    let a : Token := ⟨.identifier, .text "a", ⟨4, 5, by omega⟩, 1, 5⟩
    let b : Token := ⟨.identifier, .text "b", ⟨6, 7, by omega⟩, 1, 7⟩
    let old : Tree := .unaryOp (.ofToken first) (.identifier a)
    let named : Tree := .node .identifier [.token "IDENTIFIER" "x" none] old.place?
    let t : Tree := .block [old, .identifier b]
    parseProgram "not a;b" none {} = .ok t ∧
      (Tree.node .block [named, .identifier b] t.place?).eval
          ((s.modify 0 (·.update none none [("x", .boolean false)])).scope 0) 9 =
        t.eval (s.scope 0) 9 := by
  intro s first a b old named t
  have hparse : parseProgram "not a;b" none {} = .ok t := rfl
  have hs : s.Rooted := Rooted.push (s := {}) nofun nofun
  have hreplaced : Tree.Replaced old named t (.node .block [named, .identifier b] t.place?) :=
    @Tree.Replaced.inside old named .block [] [.identifier b] old named t.place? (by decide) .here
  have hx : "x" ∉ t.names := by decide
  have hv : old.eval (s.scope 0) 9 = .ok (Value.boolean false) := rfl
  have h := value_stands_for_its_node hs (i := 0) rfl hreplaced hx hv 9
  exact ⟨hparse, (h.1 (h.2 _ none {} _ hparse rfl (by decide))).1⟩

end Store

end Glass
