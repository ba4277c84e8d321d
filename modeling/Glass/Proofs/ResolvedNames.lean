import Glass.Proofs.FrameStore

/-!
Only resolved names matter to evaluation. It asks a scope for nothing but its source, its file name
and the values of the names that stand in the tree. So frames that give the same answers to these are
interchangeable, however many frames lie behind each of them, and a row of frames does what a single
frame does that holds the bindings of all, the inner ones counting.
-/

namespace Glass.Tree

/-- The name that an identifier stands for. -/
def ownNames : Tree → List String
  | .node .identifier (.token _ word _ :: _) _ => [word]
  | _ => []

mutual

/-- The names that stand in the identifiers of a tree, from left to right. -/
def names : Tree → List String
  | t@(.node _ children _) => ownNames t ++ namesOfAll children
  | _ => []

/-- The names in a row of trees. -/
def namesOfAll : List Tree → List String
  | [] => []
  | t :: rest => names t ++ namesOfAll rest

end

theorem mem_namesOfAll {name : String} {child : Tree} {children : List Tree}
    (hchild : child ∈ children) (h : name ∈ child.names) : name ∈ namesOfAll children := by
  induction children with
  | nil => cases hchild
  | cons first rest ih =>
      rw [namesOfAll, List.mem_append]
      rcases List.mem_cons.mp hchild with rfl | hrest
      · exact Or.inl h
      · exact Or.inr (ih hrest)

theorem mem_names_of_child {name : String} {child t : Tree} (hchild : child ∈ t.children)
    (h : name ∈ child.names) : name ∈ t.names := by
  cases t with
  | node label children place =>
      rw [names]
      exact List.mem_append_right _ (mem_namesOfAll hchild h)
  | token | number | text | flag => cases hchild

theorem mem_names_identifier (kindName word : String) (tokenPlace place : Option Place)
    (more : List Tree) :
    word ∈ (node .identifier (.token kindName word tokenPlace :: more) place).names := by
  rw [names]
  exact List.mem_append_left _ (List.mem_singleton_self word)

end Glass.Tree

namespace Glass

/-- Two scopes that give the same answers, as far as the given names go. -/
structure Scope.AgreeOn (asked : List String) (scope other : Scope) : Prop where
  source : scope.source = other.source
  filename : scope.filename = other.filename
  find : ∀ name ∈ asked, scope.find? name = other.find? name

theorem Scope.AgreeOn.mono {asked fewer : List String} {scope other : Scope}
    (h : scope.AgreeOn asked other) (hsub : ∀ name ∈ fewer, name ∈ asked) :
    scope.AgreeOn fewer other :=
  ⟨h.source, h.filename, fun name hname => h.find name (hsub name hname)⟩

theorem Failure.locate_congr {scope other : Scope} (hsource : scope.source = other.source)
    (hfilename : scope.filename = other.filename) {t t' : Tree} (hplace : t.place? = t'.place?) :
    Failure.locate scope t = Failure.locate other t' := by
  funext failure
  unfold Failure.locate Tree.span
  rw [hsource, hfilename, hplace]

theorem forM_congr {eval eval' : Tree → Except Failure Operand} {children : List Tree}
    (h : ∀ child ∈ children, eval child = eval' child) :
    (children.forM fun child => discard (eval child)) =
      children.forM fun child => discard (eval' child) := by
  induction children with
  | nil => rfl
  | cons child children ih =>
      obtain ⟨hchild, hrest⟩ := List.forall_mem_cons.mp h
      rw [List.forM, List.forM, hchild, ih hrest]

theorem evalNode_congr {scope other : Scope} {eval eval' : Tree → Except Failure Operand}
    {t : Tree} (hscope : scope.AgreeOn t.names other)
    (heval : ∀ child ∈ t.children, eval child = eval' child) :
    evalNode scope eval t = evalNode other eval' t := by
  unfold evalNode
  split
  case h_5 children place =>
    -- Only the token of an identifier has a name, and only then is the scope asked.
    match children with
    | [] => rfl
    | .token kindName word tokenPlace :: more =>
        have hfind := hscope.find word (Tree.mem_names_identifier kindName word tokenPlace place more)
        simp only [firstChild, Tree.toName, bind, Except.bind, hfind]
    | .node .. :: _ | .number _ :: _ | .text _ :: _ | .flag _ :: _ => rfl
  case h_6 op operand place =>
    have hoperand : eval operand = eval' operand := heval operand (by simp [Tree.children])
    rw [hoperand]
  case h_7 op left right place =>
    have hleft : eval left = eval' left := heval left (by simp [Tree.children])
    have hright : eval right = eval' right := heval right (by simp [Tree.children])
    rw [hleft, hright]
  case h_10 children place =>
    have hchildren : ∀ child ∈ children, eval child = eval' child := heval
    rw [forM_congr hchildren]
  all_goals rfl

/-- Evaluation depends on nothing in the scope but the source, the file name and the names in the
tree. -/
theorem Tree.eval_congr {scope other : Scope} (room : Nat) {t : Tree}
    (h : scope.AgreeOn t.names other) : t.eval scope room = t.eval other room := by
  induction room generalizing t with
  | zero => rfl
  | succ room ih =>
      have hchildren : ∀ child ∈ t.children, child.eval scope room = child.eval other room :=
        fun child hchild => ih (h.mono fun name => mem_names_of_child hchild)
      rw [Tree.eval, Tree.eval, evalNode_congr h hchildren,
        Failure.locate_congr h.source h.filename rfl]

namespace Store

/-- The bindings of a row of frames, those of an inner frame counting before those further out. -/
def merged : List Frame → Entries Value
  | [] => []
  | f :: outer => Entries.merge (merged outer) f.bindings

theorem get?_merged {chain : List Frame}
    (h : ∀ f ∈ chain, (Entries.names f.bindings).Nodup) (name : String) :
    Entries.get? (merged chain) name = chain.findSome? fun f => Entries.get? f.bindings name := by
  induction chain with
  | nil => rfl
  | cons f outer ih =>
      obtain ⟨hf, houter⟩ := List.forall_mem_cons.mp h
      rw [merged, Entries.get?_merge, Entries.get?_reverse hf, ih houter, List.findSome?_cons]
      cases Entries.get? f.bindings name <;> rfl

theorem scope_eq {s : Store} {i : Nat} {f : Frame} (h : s.get? i = some f) :
    s.scope i = ⟨layers s.frames i, f.source, f.filename⟩ := by
  unfold scope
  rw [h]
  rfl

/-- Only resolved names matter. A tree, well-formed or not, has the same outcome in two frames that
have the same source and file name and in which every name that stands in it has the same value, or
none in either. So a frame with all that lies behind it can be replaced by one frame with the merged
bindings. -/
theorem only_resolved_names_matter (t : Tree) (room : Nat) :
    (∀ (s s' : Store) (i j : Nat) (f g : Frame), s.get? i = some f → s'.get? j = some g →
      f.source = g.source → f.filename = g.filename →
      (∀ name ∈ t.names, (s.scope i).find? name = (s'.scope j).find? name) →
      t.eval (s.scope i) room = t.eval (s'.scope j) room) ∧
    ∀ (s : Store) (i : Nat) (f : Frame) (outer : List Frame), s.Rooted → s.Chain i (f :: outer) →
      (∀ g ∈ f :: outer, (Entries.names g.bindings).Nodup) →
      let one : Frame :=
        { bindings := merged (f :: outer), source := f.source, filename := f.filename }
      t.eval (s.scope i) room = t.eval ((({} : Store).push one).scope 0) room := by
  constructor
  · intro s s' i j f g hf hg hsource hfilename hfind
    refine Tree.eval_congr room ⟨?_, ?_, hfind⟩
    · rw [scope_eq hf, scope_eq hg, hsource]
    · rw [scope_eq hf, scope_eq hg, hfilename]
  · intro s i f outer hs hchain hnodup one
    have hf : s.get? i = some f := hchain.get?_eq
    have hone : (({} : Store).push one).get? 0 = some one := by
      simp [get?_push, inherited, one]
    have hrooted : (({} : Store).push one).Rooted := Rooted.push (s := {}) nofun nofun
    refine Tree.eval_congr room ⟨?_, ?_, ?_⟩
    · rw [scope_eq hf, scope_eq hone]
    · rw [scope_eq hf, scope_eq hone]
    · intro name _
      have hsole : (({} : Store).push one).Chain 0 [one] := .root hone rfl
      rw [hchain.find?_eq hs, hsole.find?_eq hrooted, ← get?_merged hnodup, List.findSome?_singleton]

/-- A name that an inner frame binds hides the outer one, in a row of frames as in one frame. -/
theorem only_resolved_names_matter_hidden :
    let name (word : String) : Tree := .node .identifier [.token "IDENTIFIER" word none] none
    let t : Tree := .node .binaryOp [.token "AND" "and" none, name "x", name "y"] none
    let outer : Frame := { bindings := [("y", .boolean true)], source := some "x and y" }
    let inner : Frame :=
      { parent := some 0, bindings := [("x", .boolean true), ("y", .void)],
        source := some "x and y" }
    let other : Frame :=
      { bindings := [("z", .void), ("y", .void), ("x", .boolean true)], source := some "x and y" }
    let s : Store := [outer, inner].foldl push {}
    let one : Frame :=
      { bindings := [("y", .void), ("x", .boolean true)], source := some "x and y" }
    t.eval (s.scope 1) 9 = t.eval ((({} : Store).push other).scope 0) 9 ∧
      t.eval (s.scope 1) 9 = t.eval ((({} : Store).push one).scope 0) 9 := by
  intro name t outer inner other s one
  have horder : ParentsFirst [outer, inner] := by
    intro i f parent hf hparent
    match i with
    | 0 => cases hf; cases hparent
    | 1 => cases hf; cases hparent; exact Nat.zero_lt_one
  have hchain : s.Chain 1 [inner, outer] := .child rfl rfl (.root rfl rfl)
  have hfind : ∀ word ∈ ["x", "y"],
      (s.scope 1).find? word = ((({} : Store).push other).scope 0).find? word :=
    List.forall_mem_cons.mpr ⟨rfl, List.forall_mem_cons.mpr ⟨rfl, nofun⟩⟩
  obtain ⟨hagree, hmerged⟩ := only_resolved_names_matter t 9
  exact ⟨hagree s _ 1 0 inner other rfl rfl rfl rfl hfind,
    hmerged s 1 inner [outer] (built_foldl_push horder).rooted hchain (by decide)⟩

end Store

end Glass
