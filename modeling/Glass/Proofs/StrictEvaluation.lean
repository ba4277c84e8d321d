import Glass.Proofs.RunOutcome

/-!
Evaluation is strict. It visits the nodes of a tree in one order that the values play no part in:
operands before their operation, the left one first, statements before their block. A tree has a
value exactly if every node it visits has one by itself, and else it fails as the first node that
fails by itself, at that node's place.
-/

namespace Glass.Tree

mutual

/-- The nodes that evaluation visits, in the order in which it is done with them. An assignment or a
call is refused without a look at its parts. -/
def visited : Tree → List Tree
  | t@(.node .unaryOp [_, operand] _) => visited operand ++ [t]
  | t@(.node .binaryOp [_, left, right] _) => visited left ++ (visited right ++ [t])
  | t@(.node .block statements _) => visitedAll statements ++ [t]
  | t => [t]

/-- The nodes that are visited in a row of trees. -/
def visitedAll : List Tree → List Tree
  | [] => []
  | t :: rest => visited t ++ visitedAll rest

end

end Glass.Tree

namespace Glass

/-- With more room the result is the same, unless it is the want of room. -/
def Persists {α : Type} (result withMore : Except Failure α) : Prop :=
  result = .error .tooDeep ∨ withMore = result

theorem Persists.refl {α : Type} (result : Except Failure α) : Persists result result :=
  Or.inr rfl

theorem Persists.bind {α β : Type} {result withMore : Except Failure α}
    {next nextWithMore : α → Except Failure β} (h : Persists result withMore)
    (hnext : ∀ a, Persists (next a) (nextWithMore a)) :
    Persists (result >>= next) (withMore >>= nextWithMore) := by
  rcases h with rfl | rfl
  · exact Or.inl rfl
  · cases withMore with
    | error failure => exact .refl _
    | ok a => exact hnext a

theorem Persists.discarded {α : Type} {result withMore : Except Failure α}
    (h : Persists result withMore) : Persists (discard result) (discard withMore) := by
  rcases h with rfl | rfl
  · exact Or.inl rfl
  · exact .refl _

theorem Persists.forM {eval evalWithMore : Tree → Except Failure Operand}
    (h : ∀ t, Persists (eval t) (evalWithMore t)) (trees : List Tree) :
    Persists (trees.forM fun t => discard (eval t))
      (trees.forM fun t => discard (evalWithMore t)) := by
  induction trees with
  | nil => exact .refl _
  | cons t trees ih => exact (h t).discarded.bind fun _ => ih

theorem Persists.locate {result withMore : Except Failure Operand} (h : Persists result withMore)
    (scope : Scope) (t : Tree) :
    Persists (result.mapError (.locate scope t)) (withMore.mapError (.locate scope t)) := by
  rcases h with rfl | rfl
  · exact Or.inl rfl
  · exact .refl _

theorem evalNode_persists {eval evalWithMore : Tree → Except Failure Operand}
    (h : ∀ t, Persists (eval t) (evalWithMore t)) (scope : Scope) (t : Tree) :
    Persists (evalNode scope eval t) (evalNode scope evalWithMore t) := by
  unfold evalNode
  split
  case h_6 =>
    split
    · exact .refl _
    · exact (h _).bind fun _ => .refl _
  case h_7 =>
    split
    · exact .refl _
    · exact (h _).bind fun _ => (h _).bind fun _ => .refl _
  case h_10 children _ => exact (Persists.forM h children).bind fun _ => .refl _
  all_goals exact .refl _

theorem Tree.eval_persists (scope : Scope) (room more : Nat) (t : Tree) :
    Persists (t.eval scope room) (t.eval scope (room + more)) := by
  induction room generalizing t with
  | zero => exact Or.inl rfl
  | succ room ih =>
      rw [Nat.succ_add]
      exact (evalNode_persists ih scope t).locate scope t

/-- The failure of a node for the given cause, at the node's own span. -/
def Failure.at (scope : Scope) (cause : Cause) (span : Span) : Failure :=
  .diagnostic ⟨cause, scope.source, some span, scope.filename⟩

/-- How a result comes from the nodes that were visited for it, each of which is evaluated by itself
with the given room: it is a value and they all have one, it is the failure of the first that fails,
or it comes from a nesting that is too deep. -/
inductive Strict {α : Type} (scope : Scope) (room : Nat) (deep : Prop) :
    (nodes : List Tree) → (result : Except Failure α) → Prop where
  | value {nodes : List Tree} {a : α} :
      (∀ n ∈ nodes, ∃ v : Value, n.eval scope room = .ok v) → Strict scope room deep nodes (.ok a)
  | failure {front rest : List Tree} {n : Tree} {cause : Cause} {span : Span} :
      (∀ m ∈ front, ∃ v : Value, m.eval scope room = .ok v) → n.span = .ok (some span) →
      n.eval scope room = .error (.at scope cause span) →
      Strict scope room deep (front ++ n :: rest) (.error (.at scope cause span))
  | tooDeep {nodes : List Tree} : deep → Strict scope room deep nodes (.error .tooDeep)

section
variable {α β : Type} {scope : Scope} {room : Nat} {deep : Prop}

theorem Strict.mono {deep' : Prop} {nodes : List Tree} {result : Except Failure α}
    (h : Strict scope room deep nodes result) (himp : deep → deep') :
    Strict scope room deep' nodes result := by
  cases h with
  | value hvalues => exact .value hvalues
  | failure hfront hspan hn => exact .failure hfront hspan hn
  | tooDeep hdeep => exact .tooDeep (himp hdeep)

/-- What fails first fails the whole, and else what comes next decides. -/
theorem Strict.bind {nodes more : List Tree} {result : Except Failure α}
    {next : α → Except Failure β} (h : Strict scope room deep nodes result)
    (hnext : ∀ a, result = .ok a → Strict scope room deep more (next a)) :
    Strict scope room deep (nodes ++ more) (result >>= next) := by
  cases h with
  | @value _ a hvalues =>
      have hmore := hnext a rfl
      change Strict scope room deep (nodes ++ more) (next a)
      generalize next a = last at hmore
      cases hmore with
      | value hvalues' => exact .value (List.forall_mem_append.mpr ⟨hvalues, hvalues'⟩)
      | @failure front rest n _ _ hfront hspan hn =>
          rw [← List.append_assoc]
          exact .failure (List.forall_mem_append.mpr ⟨hvalues, hfront⟩) hspan hn
      | tooDeep hdeep => exact .tooDeep hdeep
  | @failure front rest n _ _ hfront hspan hn =>
      rw [List.append_assoc, List.cons_append]
      exact .failure hfront hspan hn
  | tooDeep hdeep => exact .tooDeep hdeep

theorem Strict.discarded {nodes : List Tree} {result : Except Failure α}
    (h : Strict scope room deep nodes result) : Strict scope room deep nodes (discard result) := by
  cases h with
  | value hvalues => exact .value hvalues
  | failure hfront hspan hn => exact .failure hfront hspan hn
  | tooDeep hdeep => exact .tooDeep hdeep

/-- A failure that has its place keeps it on the way up. -/
theorem Strict.locate_eq {source : String} {nodes : List Tree} {result : Except Failure α}
    (h : Strict scope room deep nodes result) (hsource : scope.source = some source) {t : Tree}
    {span : Span} (hspan : t.span = .ok (some span)) :
    result.mapError (.locate scope t) = result := by
  cases h with
  | value => rfl
  | @failure _ _ _ cause at' =>
      have hlocate : Failure.locate scope t (.at scope cause at') = .at scope cause at' := by
        simp [Failure.locate, Failure.at, hspan, Diagnostic.attach, Diagnostic.isLocated,
          Diagnostic.location?, hsource]
      exact congrArg Except.error hlocate
  | tooDeep => rfl

/-- A fresh failure is placed at the node it arises in. -/
theorem locate_ofCause {source : String} (hsource : scope.source = some source) {t : Tree}
    {span : Span} (hspan : t.span = .ok (some span)) (cause : Cause) :
    Failure.locate scope t (.ofCause cause) = .at scope cause span := by
  simp [Failure.locate, Failure.ofCause, Failure.at, hspan, Diagnostic.attach,
    Diagnostic.isLocated, Diagnostic.location?, hsource]

theorem mapError_bind (result : Except Failure α) (next : α → Except Failure β)
    (f : Failure → Failure) :
    (result >>= next).mapError f = result.mapError f >>= fun a => (next a).mapError f := by
  cases result <;> rfl

theorem Tree.Placed.span_eq {length : Nat} {t : Tree} (h : t.Placed length) :
    ∃ span, t.span = .ok (some span) := by
  obtain ⟨span, line, column, hplace, _⟩ := h
  exact ⟨span, by rw [Tree.span, hplace]; rfl⟩

/-- A node whose children have their values gives a value or fails for a cause of its own, and does
so with any more room as well. -/
theorem Strict.own {source : String} (hsource : scope.source = some source) {t : Tree}
    {length less : Nat} (hplaced : t.Placed length) (hle : less ≤ room)
    {result : Except Cause Value}
    (h : t.eval scope less = (Operand.ofResult result).mapError (.locate scope t)) :
    Strict scope room deep [t] ((Operand.ofResult result).mapError (.locate scope t)) := by
  obtain ⟨more, rfl⟩ := Nat.exists_eq_add_of_le hle
  obtain ⟨span, hspan⟩ := hplaced.span_eq
  have hpersists := t.eval_persists scope less more
  cases result with
  | ok v =>
      change t.eval scope less = .ok v at h
      rw [h] at hpersists
      have hmore := hpersists.resolve_left nofun
      exact .value (List.forall_mem_singleton.mpr ⟨v, hmore⟩)
  | error cause =>
      change t.eval scope less = .error (.locate scope t (.ofCause cause)) at h
      change Strict scope _ deep [t] (.error (.locate scope t (.ofCause cause)))
      rw [locate_ofCause hsource hspan] at h ⊢
      rw [h] at hpersists
      have hmore := hpersists.resolve_left nofun
      exact @Strict.failure _ scope _ deep [] [] t cause span (by simp) hspan hmore

/-- Evaluating a node takes one of the room, and without room it is too deep. -/
theorem strict_node {label : Label} {children : List Tree} {place : Option Place}
    {nodes : List Tree} {less : Nat}
    (h : ∀ left, less = left + 1 → Strict scope room (less < (Tree.node label children place).height)
      nodes ((Tree.node label children place).eval scope less)) :
    Strict scope room (less < (Tree.node label children place).height) nodes
      ((Tree.node label children place).eval scope less) := by
  cases less with
  | zero =>
      apply Strict.tooDeep
      rw [Tree.height]
      exact Nat.succ_pos _
  | succ left => exact h left rfl

/-- A node without operands gives what it gives of itself. -/
theorem strict_leaf {source : String} (hsource : scope.source = some source) {label : Label}
    {children : List Tree} {place : Option Place} {length less : Nat}
    (hplaced : (Tree.node label children place).Placed length) (hle : less ≤ room)
    {r : Except Cause Value}
    (h : ∀ eval, evalNode scope eval (.node label children place) = Operand.ofResult r) :
    Strict scope room (less < (Tree.node label children place).height) [.node label children place]
      ((Tree.node label children place).eval scope less) := by
  apply strict_node
  rintro left rfl
  have heval : (Tree.node label children place).eval scope (left + 1) =
      (Operand.ofResult r).mapError (.locate scope (.node label children place)) := by
    rw [Tree.eval, h]
  rw [heval]
  exact .own hsource hplaced hle heval

theorem Strict.forM {eval : Tree → Except Failure Operand} {children : List Tree}
    (h : ∀ child ∈ children, Strict scope room deep child.visited (eval child)) :
    Strict scope room deep (Tree.visitedAll children)
      (children.forM fun child => discard (eval child)) := by
  induction children with
  | nil => exact .value (by simp [Tree.visitedAll])
  | cons child children ih =>
      obtain ⟨hchild, hchildren⟩ := List.forall_mem_cons.mp h
      rw [Tree.visitedAll]
      exact hchild.discarded.bind fun _ _ => ih hchildren

/-- A sound tree is evaluated strictly, whatever part of the room it is given. -/
theorem strict_of_sound {source : String} (hsource : scope.source = some source) {length : Nat}
    {t : Tree} (h : t.Sound length) {less : Nat} (hle : less ≤ room) :
    Strict scope room (less < t.height) t.visited (t.eval scope less) := by
  induction h generalizing less with
  | @number x _ hplaced =>
      exact strict_leaf hsource hplaced hle (r := .ok (.number x)) fun _ => rfl
  | @string text _ hplaced =>
      exact strict_leaf hsource hplaced hle (r := .ok (.string text)) fun _ => rfl
  | @boolean b _ hplaced =>
      exact strict_leaf hsource hplaced hle (r := .ok (.boolean b)) fun _ => rfl
  | void hplaced => exact strict_leaf hsource hplaced hle (r := .ok .void) fun _ => rfl
  | @identifier t place hplaced =>
      cases hfind : scope.find? t.payload.toText with
      | some value =>
          refine strict_leaf hsource hplaced hle (r := .ok value) fun eval => ?_
          rw [Tree.evalNode_name, hfind]
          rfl
      | none =>
          refine strict_leaf hsource hplaced hle
            (r := .error (.undefinedName t.payload.toText)) fun eval => ?_
          rw [Tree.evalNode_name, hfind]
          rfl
  | @unaryOp op operand unary place hplaced hop hsound ih =>
      apply strict_node
      rintro left rfl
      obtain ⟨span, hspan⟩ := hplaced.span_eq
      have hoperand := ih (Nat.le_of_succ_le hle)
      have heval : (Tree.node .unaryOp [op, operand] place).eval scope (left + 1) =
          operand.eval scope left >>= fun v => (v.applyUnary unary).mapError
            (.locate scope (.node .unaryOp [op, operand] place)) := by
        simp only [Tree.eval, evalNode, hop, mapError_bind, hoperand.locate_eq hsource hspan]
      rw [Tree.visited, heval]
      refine Strict.bind (hoperand.mono fun hdeep => ?_) fun v hv => ?_
      · exact Nat.lt_of_le_of_lt hdeep (height_lt_node (by simp))
      · obtain ⟨v, rfl⟩ := hsound.givesValue scope left _ hv
        apply Strict.own hsource hplaced hle
        rw [heval, hv]
        rfl
  | @binaryOp op left right binary place hplaced hop hsoundl hsoundr ihl ihr =>
      apply strict_node
      rintro less rfl
      obtain ⟨span, hspan⟩ := hplaced.span_eq
      have hleft := ihl (Nat.le_of_succ_le hle)
      have hright := ihr (Nat.le_of_succ_le hle)
      have heval : (Tree.node .binaryOp [op, left, right] place).eval scope (less + 1) =
          left.eval scope less >>= fun first => right.eval scope less >>= fun second =>
            (first.applyBinary binary second).mapError
              (.locate scope (.node .binaryOp [op, left, right] place)) := by
        simp only [Tree.eval, evalNode, hop, mapError_bind, hleft.locate_eq hsource hspan,
          hright.locate_eq hsource hspan]
      rw [Tree.visited, heval]
      refine Strict.bind (hleft.mono fun hdeep => ?_) fun first hfirst =>
        Strict.bind (hright.mono fun hdeep => ?_) fun second hsecond => ?_
      · exact Nat.lt_of_le_of_lt hdeep (height_lt_node (by simp))
      · exact Nat.lt_of_le_of_lt hdeep (height_lt_node (by simp))
      · obtain ⟨v, rfl⟩ := hsoundl.givesValue scope less _ hfirst
        obtain ⟨w, rfl⟩ := hsoundr.givesValue scope less _ hsecond
        apply Strict.own hsource hplaced hle
        rw [heval, hfirst, hsecond]
        rfl
  | assignment hplaced =>
      exact strict_leaf hsource hplaced hle (r := .error Label.assignment.unsupported)
        fun _ => rfl
  | functionCall hplaced =>
      exact strict_leaf hsource hplaced hle (r := .error Label.functionCall.unsupported)
        fun _ => rfl
  | @block children place hplaced _ ih =>
      apply strict_node
      rintro left rfl
      obtain ⟨span, hspan⟩ := hplaced.span_eq
      have hchildren : Strict scope room
          (left + 1 < (Tree.node .block children place).height) (Tree.visitedAll children)
          (children.forM fun child => discard (child.eval scope left)) := by
        apply Strict.forM
        intro child member
        exact (ih child member (Nat.le_of_succ_le hle)).mono fun hdeep =>
          Nat.lt_of_le_of_lt hdeep (height_lt_node member)
      have heval : (Tree.node .block children place).eval scope (left + 1) =
          (children.forM fun child => discard (child.eval scope left)) >>= fun _ =>
            (Operand.ofResult (.ok .void)).mapError
              (.locate scope (.node .block children place)) := by
        simp only [Tree.eval, evalNode, mapError_bind, hchildren.locate_eq hsource hspan]
        rfl
      rw [Tree.visited, heval]
      refine hchildren.bind fun _ hdone => Strict.own hsource hplaced hle ?_
      rw [heval, hdone]
      rfl

end

/-- A program's tree comes to a value or fails. It has a value exactly if every node it visits has one
by itself, and else it fails as the first of them that fails by itself, with a diagnostic at that
node's span. This is so unless its nodes lie too deep inside one another, which they do not with room
for its height. -/
theorem evaluate_fails_as_first_visited (source : String) (parsedAs filename : Option String)
    (bindings : Entries Value) (limits : Limits) (t : Tree)
    (hparse : parseProgram source parsedAs limits = .ok t) :
    let value (n : Tree) := evaluate n (some source) filename bindings limits
    (value t ≠ .error .tooDeep →
      (∀ a, value t = .ok a → ∃ v : Value, a = v) ∧
      ((∃ v : Value, value t = .ok v) ↔ ∀ n ∈ t.visited, ∃ v : Value, value n = .ok v) ∧
      ∀ failure, value t = .error failure →
        ∃ front n rest, t.visited = front ++ n :: rest ∧
          (∀ m ∈ front, ∃ v : Value, value m = .ok v) ∧ value n = .error failure ∧
          ∃ d span, failure = .diagnostic d ∧ d.span = some span ∧ n.span = .ok (some span)) ∧
    (t.height ≤ limits.evaluation → value t ≠ .error .tooDeep) := by
  intro value
  let scope : Scope := { layers := [bindings], source := some source, filename }
  have hsound := (parseProgram_eq_ok hparse).1
  have hstrict : Strict scope limits.evaluation (limits.evaluation < t.height) t.visited (value t) :=
    strict_of_sound rfl hsound (Nat.le_refl _)
  have hgives : Tree.GivesValue (value t) := hsound.givesValue scope limits.evaluation
  generalize t.visited = nodes at hstrict ⊢
  generalize value t = result at hstrict hgives ⊢
  cases hstrict with
  | @value _ a hvalues =>
      obtain ⟨v, rfl⟩ := hgives a rfl
      refine ⟨fun _ => ⟨hgives, iff_of_true ⟨v, rfl⟩ hvalues, ?_⟩, ?_⟩
      · intro failure hfailure
        cases hfailure
      · intro _ htoo
        cases htoo
  | @failure front rest n cause span hfront hspan hn =>
      refine ⟨fun _ => ⟨hgives, iff_of_false ?_ ?_, ?_⟩, ?_⟩
      · rintro ⟨v, hv⟩
        cases hv
      · intro hvalues
        obtain ⟨v, hv⟩ := hvalues n (by simp)
        exact nomatch hn.symm.trans hv
      · rintro _ ⟨rfl⟩
        exact ⟨front, n, rest, rfl, hfront, hn, _, span, rfl, rfl, hspan⟩
      · intro _ htoo
        cases htoo
  | tooDeep hdeep =>
      exact ⟨fun hdepth => absurd rfl hdepth, fun hroom => absurd hdeep (Nat.not_lt.mpr hroom)⟩

/-- Although `x` is false, the sum to its right is evaluated, and refused before the name `y`. -/
theorem evaluate_fails_as_first_visited_sum :
    let value (n : Tree) :=
      evaluate n (some "x and (true + void); y") none [("x", .boolean false)] {}
    let failure : Failure := .diagnostic ⟨.invalidOperation "+" "boolean" "void",
      some "x and (true + void); y", some { start := 7, stop := 18 }, none⟩
    ∃ t, parseProgram "x and (true + void); y" none {} = .ok t ∧ value t = .error failure ∧
      ∃ front n rest, t.visited = front ++ n :: rest ∧
        (∀ m ∈ front, ∃ v : Value, value m = .ok v) ∧ value n = .error failure ∧
        ∃ d span, failure = .diagnostic d ∧ d.span = some span ∧ n.span = .ok (some span) := by
  intro value failure
  obtain ⟨t, hparse⟩ : ∃ t, parseProgram "x and (true + void); y" none {} = .ok t := ⟨_, rfl⟩
  have hfailure : (parseProgram "x and (true + void); y" none {} >>= value) = .error failure := rfl
  rw [hparse] at hfailure
  obtain ⟨hstrict, hdepth⟩ :=
    evaluate_fails_as_first_visited "x and (true + void); y" none none [("x", .boolean false)] {} t
      hparse
  have hheight : t.height ≤ 247 := Nat.le_trans (parseProgram_eq_ok hparse).2 (by decide)
  exact ⟨t, hparse, hfailure, (hstrict (hdepth hheight)).2.2 failure hfailure⟩

end Glass
