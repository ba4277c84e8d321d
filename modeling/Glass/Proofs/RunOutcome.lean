import Glass.Program
import Glass.Proofs.ParseFaults
import Glass.Proofs.ParsedTree
import Glass.Proofs.ParserCompleteness

/-!
How running a program can end. A text that parses has a sound tree, and a sound tree evaluates to a
value or to a diagnostic that lies in the program and points into its text; a text that does not
parse is reported at one of its tokens or at its end. Nothing else happens unless the program nests
more deeply than allowed, and it cannot nest more deeply than it has tokens.
-/

namespace Glass

/-- The causes that lie in a program: in its text, its names or its values. -/
def Cause.liesInProgram : Cause → Bool
  | .unknownToken _ | .unclosedString | .unknownEscape _ | .unexpectedToken .. | .unexpectedEnd _
  | .unsupported _ | .invalidOperation .. | .invalidUnaryOperation .. | .undefinedName _ => true
  | .general _ | .internal _ | .unreadableFile _ => false

/-- The diagnostic tells of a fault in the program, in its own text and under its own name. -/
structure Diagnostic.PointsInto (source filename : String) (d : Diagnostic) : Prop where
  cause : d.cause.liesInProgram = true
  source_eq : d.source = some source
  span_le : ∃ span, d.span = some span ∧ span.stop ≤ source.length
  filename_eq : d.filename = some filename

theorem Diagnostic.PointsInto.isLocated {source filename : String} {d : Diagnostic}
    (h : d.PointsInto source filename) : d.isLocated = true := by
  obtain ⟨span, hspan, _⟩ := h.span_le
  simp [Diagnostic.isLocated, location?, h.source_eq, hspan]

theorem Value.applyUnary_cause {op : UnaryOp} {v : Value} {cause : Cause}
    (h : v.applyUnary op = .error cause) : cause.liesInProgram = true := by
  unfold Value.applyUnary at h
  split at h <;> cases h
  rfl

theorem Value.onNumbers_cause {op : BinaryOp} {f : Float → Float → Value} {left right : Value}
    {cause : Cause} (h : Value.onNumbers op f left right = .error cause) :
    cause.liesInProgram = true := by
  unfold Value.onNumbers at h
  split at h <;> cases h
  rfl

theorem Value.onBooleans_cause {op : BinaryOp} {f : Bool → Bool → Bool} {left right : Value}
    {cause : Cause} (h : Value.onBooleans op f left right = .error cause) :
    cause.liesInProgram = true := by
  unfold Value.onBooleans at h
  split at h <;> cases h
  rfl

theorem Value.applyBinary_cause {op : BinaryOp} {left right : Value} {cause : Cause}
    (h : left.applyBinary op right = .error cause) : cause.liesInProgram = true := by
  cases op with
  | add =>
      simp only [Value.applyBinary, Value.add] at h
      split at h <;> cases h
      rfl
  | multiply =>
      simp only [Value.applyBinary, Value.multiply] at h
      split at h
      · cases h
      · split at h <;> cases h
        rfl
      · split at h <;> cases h
        rfl
      · cases h
        rfl
  | equal => cases h
  | notEqual => cases h
  | both => exact Value.onBooleans_cause h
  | either => exact Value.onBooleans_cause h
  | _ => exact Value.onNumbers_cause h

/-- What evaluation may come to, given the room it has. -/
inductive Settles (source filename : String) (room : Nat) (t : Tree) :
    Except Failure Operand → Prop where
  | value (v : Value) : Settles source filename room t (.ok v)
  | diagnostic {d : Diagnostic} :
      d.PointsInto source filename → Settles source filename room t (.error (.diagnostic d))
  | tooDeep : room < t.height → Settles source filename room t (.error .tooDeep)

/-- The same, before a failure is given the place of its node. -/
inductive Raises (source filename : String) (room : Nat) (t : Tree) :
    Except Failure Operand → Prop where
  | value (v : Value) : Raises source filename room t (.ok v)
  | fresh {cause : Cause} :
      cause.liesInProgram = true → Raises source filename room t (.error (.ofCause cause))
  | diagnostic {d : Diagnostic} :
      d.PointsInto source filename → Raises source filename room t (.error (.diagnostic d))
  | tooDeep : room < t.height → Raises source filename room t (.error .tooDeep)

section
variable {source filename : String} {room : Nat}

/-- The failure of a child is a failure of the node. -/
theorem Raises.bind {child t : Tree} {result : Except Failure Operand}
    {next : Operand → Except Failure Operand} (h : Settles source filename room child result)
    (hheight : child.height < t.height)
    (hnext : ∀ v : Value, Raises source filename (room + 1) t (next v)) :
    Raises source filename (room + 1) t (result >>= next) := by
  cases h with
  | value v => exact hnext v
  | diagnostic hd => exact .diagnostic hd
  | tooDeep hroom => exact .tooDeep (Nat.lt_of_le_of_lt hroom hheight)

theorem Raises.ofResult {t : Tree} {result : Except Cause Value}
    (h : ∀ cause, result = .error cause → cause.liesInProgram = true) :
    Raises source filename room t (Operand.ofResult result) := by
  cases result with
  | ok v => exact .value v
  | error cause => exact .fresh (h cause rfl)

theorem Raises.forM {t : Tree} {eval : Tree → Except Failure Operand} {children : List Tree}
    {v : Value} (h : ∀ child ∈ children, Settles source filename room child (eval child))
    (hheight : ∀ child ∈ children, child.height < t.height) :
    Raises source filename (room + 1) t
      ((children.forM fun child => discard (eval child)) >>= fun _ => pure (Operand.value v)) := by
  induction children with
  | nil => exact .value v
  | cons child children ih =>
      obtain ⟨hchild, hchildren⟩ := List.forall_mem_cons.mp h
      obtain ⟨hfirst, hrest⟩ := List.forall_mem_cons.mp hheight
      have hfirstThen : ((child :: children).forM fun child => discard (eval child)) >>=
          (fun _ => pure (Operand.value v)) = eval child >>= fun _ =>
            (children.forM fun child => discard (eval child)) >>= fun _ =>
              pure (Operand.value v) := by
        cases hresult : eval child <;> simp [List.forM, hresult] <;> rfl
      rw [hfirstThen]
      exact Raises.bind hchild hfirst fun _ => ih hchildren hrest

/-- A failure is given the place of the innermost node it arose in. -/
theorem Raises.locate {scope : Scope} {t : Tree} {result : Except Failure Operand}
    (h : Raises source filename room t result) (hsource : scope.source = some source)
    (hfilename : scope.filename = some filename) (hplaced : t.Placed source.length) :
    Settles source filename room t (result.mapError (.locate scope t)) := by
  obtain ⟨span, line, column, hplace, hle⟩ := hplaced
  have hspan : t.span = .ok (some span) := by
    rw [Tree.span, hplace]
    rfl
  cases h with
  | value v => exact .value v
  | @fresh cause hcause =>
      have hlocate : Failure.locate scope t (.ofCause cause) =
          .diagnostic ⟨cause, some source, some span, some filename⟩ := by
        simp [Failure.locate, Failure.ofCause, hspan, Diagnostic.attach, Diagnostic.isLocated,
          Diagnostic.location?, hsource, hfilename]
      change Settles source filename room t (.error (Failure.locate scope t (.ofCause cause)))
      rw [hlocate]
      exact .diagnostic ⟨hcause, rfl, ⟨span, rfl, hle⟩, rfl⟩
  | @diagnostic d hd =>
      have hlocate : Failure.locate scope t (.diagnostic d) = .diagnostic d := by
        simp [Failure.locate, hspan, Diagnostic.attach, hd.isLocated]
      change Settles source filename room t (.error (Failure.locate scope t (.diagnostic d)))
      rw [hlocate]
      exact .diagnostic hd
  | tooDeep hroom => exact .tooDeep hroom

theorem height_lt_node {child : Tree} {label : Label} {children : List Tree}
    {place : Option Place} (h : child ∈ children) :
    child.height < (Tree.node label children place).height := by
  rw [Tree.height]
  exact Nat.lt_succ_of_le (Tree.height_le_heightOfAll h)

/-- Evaluating a node takes one of the room, and without room it is too deep. -/
theorem settles_node {scope : Scope} {label : Label} {children : List Tree} {place : Option Place}
    (hsource : scope.source = some source) (hfilename : scope.filename = some filename)
    (hplaced : (Tree.node label children place).Placed source.length)
    (h : ∀ room, Raises source filename (room + 1) (.node label children place)
      (evalNode scope (Tree.eval scope room) (.node label children place))) :
    Settles source filename room (.node label children place)
      (Tree.eval scope room (.node label children place)) := by
  cases room with
  | zero =>
      apply Settles.tooDeep
      rw [Tree.height]
      exact Nat.succ_pos _
  | succ room => exact (h room).locate hsource hfilename hplaced

/-- A sound tree evaluates to a value or to a diagnostic that points into the program. -/
theorem settles_of_sound {t : Tree} (h : t.Sound source.length) {scope : Scope}
    (hsource : scope.source = some source) (hfilename : scope.filename = some filename) :
    Settles source filename room t (t.eval scope room) := by
  induction h generalizing room with
  | number hplaced => exact settles_node hsource hfilename hplaced fun _ => .value _
  | string hplaced => exact settles_node hsource hfilename hplaced fun _ => .value _
  | boolean hplaced => exact settles_node hsource hfilename hplaced fun _ => .value _
  | void hplaced => exact settles_node hsource hfilename hplaced fun _ => .value _
  | @identifier t place hplaced =>
      apply settles_node hsource hfilename hplaced
      intro room
      rw [Tree.evalNode_name]
      cases scope.find? t.payload.toText with
      | some value => exact .value value
      | none => exact .fresh rfl
  | @unaryOp op operand unary place hplaced hop _ ih =>
      apply settles_node hsource hfilename hplaced
      intro room
      simp only [evalNode, hop]
      exact .bind ih (height_lt_node (by simp)) fun v =>
        .ofResult fun cause hcause => Value.applyUnary_cause hcause
  | @binaryOp op left right binary place hplaced hop _ _ ihl ihr =>
      apply settles_node hsource hfilename hplaced
      intro room
      simp only [evalNode, hop]
      exact .bind ihl (height_lt_node (by simp)) fun first =>
        .bind ihr (height_lt_node (by simp)) fun second =>
          .ofResult fun cause hcause => Value.applyBinary_cause hcause
  | assignment hplaced => exact settles_node hsource hfilename hplaced fun _ => .fresh rfl
  | functionCall hplaced => exact settles_node hsource hfilename hplaced fun _ => .fresh rfl
  | block hplaced _ ih =>
      apply settles_node hsource hfilename hplaced
      intro room
      exact .forM (fun child member => ih child member) fun child member => height_lt_node member

end

theorem Cause.liesInProgram_of_blamesToken {cause : Cause} (h : cause.blamesToken = true) :
    cause.liesInProgram = true := by
  revert h
  cases cause <;> simp [Cause.blamesToken, Cause.liesInProgram]

theorem Diagnostic.filename_unexpectedEnd {filename : String} (source : Option String)
    (h : filename ≠ "") : (unexpectedEnd (some filename) source).filename = some filename := by
  simp [unexpectedEnd]

/-- A text that does not parse is reported in it, unless it nests too deeply. -/
theorem parseProgram_eq_error {source filename : String} {limits : Limits} {failure : Failure}
    (hfilename : filename ≠ "")
    (h : parseProgram source (some filename) limits = .error failure) :
    failure = .tooDeep ∨
      ∃ d : Diagnostic, failure = .diagnostic d ∧ d.PointsInto source filename := by
  rcases Parser.program_fails h with rfl | rfl | ⟨t, hmember, _, fault, _, _, hblames, rfl⟩
  · exact Or.inl rfl
  · exact Or.inr ⟨_, rfl, rfl, rfl, ⟨_, rfl, Nat.le_refl _⟩,
      Diagnostic.filename_unexpectedEnd (some source) hfilename⟩
  · obtain ⟨cause, hcause, hfailure⟩ :=
      Parser.failure_of_blames (.ofText source (some filename)) hblames
    exact Or.inr ⟨_, hfailure, Cause.liesInProgram_of_blamesToken hcause, rfl,
      ⟨_, rfl, (tokenize_fits source t hmember).span_le⟩, rfl⟩

/-- A program nests more deeply than allowed, in parsing or in evaluation. -/
def NestsTooDeeply (source filename : String) (bindings : Entries Value) (limits : Limits) : Prop :=
  parseProgram source (some filename) limits = .error .tooDeep ∨
    ∃ tree, parseProgram source (some filename) limits = .ok tree ∧
      evaluate tree (some source) (some filename) bindings limits = .error .tooDeep

/-- The grammar derives the tree of a text from the text's tokens. -/
theorem program_of_parseProgram {source : String} {filename : Option String} {limits : Limits}
    {tree : Tree} (h : parseProgram source filename limits = .ok tree) :
    Grammar.Program (tokenize source) tree := by
  have hparse : ((Parser.ofText source filename).parse .program limits).1 = .ok tree := by
    change ((Parser.ofText source filename).parse .program limits).1.mapError _ = _ at h
    cases hresult : ((Parser.ofText source filename).parse .program limits).1 with
    | ok other =>
        rw [hresult] at h
        exact congrArg Except.ok (Except.ok.inj h)
    | error fault =>
        rw [hresult] at h
        cases h
  exact Parser.program_of_parse hparse

/-- The tree of a text is sound and no higher than the text has tokens. -/
theorem parseProgram_eq_ok {source : String} {filename : Option String} {limits : Limits}
    {tree : Tree} (h : parseProgram source filename limits = .ok tree) :
    tree.Sound source.length ∧ tree.height ≤ (tokenize source).length := by
  have hprogram := program_of_parseProgram h
  exact ⟨hprogram.sound (tokenize_fits source), hprogram.height_le⟩

theorem evaluate_settles {source filename : String} {limits : Limits} {tree : Tree}
    (bindings : Entries Value) (h : tree.Sound source.length) :
    Settles source filename limits.evaluation tree
      (evaluate tree (some source) (some filename) bindings limits) :=
  settles_of_sound h rfl rfl

/-- With an allowance of eighteen a token for parsing and of one a token for evaluation no program
nests too deeply. -/
theorem not_nestsTooDeeply {source filename : String} {bindings : Entries Value} {limits : Limits}
    (hnesting : 18 * (tokenize source).length ≤ limits.nesting)
    (hevaluation : (tokenize source).length ≤ limits.evaluation) :
    ¬ NestsTooDeeply source filename bindings limits := by
  rintro (hparse | ⟨tree, hparse, hevaluate⟩)
  · obtain ⟨fault, hrun, hfailure⟩ := Parser.program_eq_error hparse
    cases fault with
    | tooDeep => exact Parser.run_initial_ne_tooDeep .program hnesting hrun
    | _ => cases hfailure
  · obtain ⟨hsound, hheight⟩ := parseProgram_eq_ok hparse
    have hsettles := @evaluate_settles source filename limits tree bindings hsound
    rw [hevaluate] at hsettles
    cases hsettles with
    | tooDeep hroom => omega

/-- Running a program gives a value or a located diagnostic of a fault in the program, which points
into the program's text under the program's name, unless the program nests too deeply. With enough
allowance for each of its tokens no program does. -/
theorem run_gives_value_or_points (source filename : String) (bindings : Entries Value)
    (limits : Limits) (hfilename : filename ≠ "") :
    (¬ NestsTooDeeply source filename bindings limits →
      (∃ value, run source filename bindings limits = .ok value) ∨
      ∃ d : Diagnostic, run source filename bindings limits = .error (.diagnostic d) ∧
        d.isLocated = true ∧ d.PointsInto source filename) ∧
    (18 * (tokenize source).length ≤ limits.nesting →
      (tokenize source).length ≤ limits.evaluation →
      ¬ NestsTooDeeply source filename bindings limits) := by
  refine ⟨fun hdepth => ?_, not_nestsTooDeeply⟩
  unfold run
  cases hparse : parseProgram source (some filename) limits with
  | error failure =>
      rcases parseProgram_eq_error hfilename hparse with rfl | ⟨d, rfl, hpoints⟩
      · exact absurd (Or.inl hparse) hdepth
      · exact Or.inr ⟨d, rfl, hpoints.isLocated, hpoints⟩
  | ok tree =>
      have hsettles := @evaluate_settles source filename limits tree bindings
        (parseProgram_eq_ok hparse).1
      generalize hevaluate : evaluate tree (some source) (some filename) bindings limits = result
        at hsettles
      change (∃ value, (evaluate tree _ _ bindings limits >>= Operand.toValue).mapError
          Failure.reported = _) ∨
        ∃ d : Diagnostic, (evaluate tree _ _ bindings limits >>= Operand.toValue).mapError
          Failure.reported = _ ∧ _
      rw [hevaluate]
      cases hsettles with
      | value v => exact Or.inl ⟨v, rfl⟩
      | @diagnostic d hpoints => exact Or.inr ⟨d, rfl, hpoints.isLocated, hpoints⟩
      | tooDeep => exact absurd (Or.inr ⟨tree, hparse, hevaluate⟩) hdepth

/-- `not void` is refused where it stands. -/
theorem run_gives_value_or_points_void :
    ∃ d : Diagnostic, run "not void" "main" [] {} = .error (.diagnostic d) ∧
      d.isLocated = true ∧ d.PointsInto "not void" "main" := by
  obtain ⟨hresult, hdepth⟩ := run_gives_value_or_points "not void" "main" [] {} (by decide)
  rcases hresult (hdepth (by decide) (by decide)) with ⟨value, hvalue⟩ | hpoints
  · have hrefused : run "not void" "main" [] {} ≠ .ok value := nofun
    exact absurd hvalue hrefused
  · exact hpoints

end Glass
