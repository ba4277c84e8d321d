import Glass.Program
import Glass.Proofs.ParsedTree
import Glass.Proofs.PrintedExpression
import Glass.Proofs.SignedNumber

/-!
Printed scalars run to themselves. The printed form of a number, a string, a boolean or void is the
text of an expression: of a literal, or of a literal behind a minus sign if the number is negative.
The places of its nodes play no part in its value, so that running the text gives the scalar back,
down to the sign of a zero.
-/

namespace Glass

section Places

theorem toOption_mapError {ε ε' α : Type} (f : ε → ε') (result : Except ε α) :
    (result.mapError f).toOption = result.toOption := by
  cases result <;> rfl

theorem toOption_bind {ε α β : Type} (result : Except ε α) (next : α → Except ε β) :
    (result >>= next).toOption = result.toOption.bind fun a => (next a).toOption := by
  cases result <;> rfl

theorem eq_ok_of_toOption {ε α : Type} {result : Except ε α} {a : α}
    (h : result.toOption = some a) : result = .ok a := by
  cases result with
  | ok b => exact congrArg Except.ok (Option.some.inj h)
  | error e => cases h

namespace Tree

theorem unaryOp?_unplaced (t : Tree) : t.unplaced.unaryOp? = t.unaryOp? := by
  cases t <;> rfl

theorem binaryOp?_unplaced (t : Tree) : t.unplaced.binaryOp? = t.binaryOp? := by
  cases t <;> rfl

end Tree

section
variable {scope : Scope} {eval : Tree → Except Failure Operand}

theorem toOption_forM_unplaced {children : List Tree}
    (h : ∀ t ∈ children, (eval t.unplaced).toOption = (eval t).toOption) :
    ((Tree.unplacedAll children).forM fun t => discard (eval t)).toOption =
      (children.forM fun t => discard (eval t)).toOption := by
  have hdiscard (t : Tree) :
      (discard (eval t)).toOption = (eval t).toOption.map fun _ => PUnit.unit := by
    cases eval t <;> rfl
  induction children with
  | nil => rfl
  | cons t children ih =>
      obtain ⟨ht, hchildren⟩ := List.forall_mem_cons.mp h
      rw [Tree.unplacedAll, List.forM, List.forM, toOption_bind, toOption_bind, hdiscard, hdiscard,
        ht, ih hchildren]

theorem Tree.toOption_eval_of_evalNode {t : Tree}
    (h : ∀ room, (evalNode scope (Tree.eval scope room) t.unplaced).toOption =
      (evalNode scope (Tree.eval scope room) t).toOption) (room : Nat) :
    (t.unplaced.eval scope room).toOption = (t.eval scope room).toOption := by
  cases room with
  | zero => rfl
  | succ room => rw [Tree.eval, Tree.eval, toOption_mapError, toOption_mapError, h]

end

/-- The places of nodes play no part in whether a sound tree has a value, and which. -/
theorem Tree.Sound.toOption_eval_unplaced {length : Nat} {t : Tree} (h : t.Sound length)
    (scope : Scope) (room : Nat) :
    (t.unplaced.eval scope room).toOption = (t.eval scope room).toOption := by
  induction h generalizing room with
  | @unaryOp op operand unary place _ hop _ ih =>
      apply Tree.toOption_eval_of_evalNode
      intro room
      simp only [Tree.unplaced, Tree.unplacedAll, evalNode, Tree.unaryOp?_unplaced, hop,
        toOption_bind, ih]
  | @binaryOp op left right binary place _ hop _ _ ihl ihr =>
      apply Tree.toOption_eval_of_evalNode
      intro room
      simp only [Tree.unplaced, Tree.unplacedAll, evalNode, Tree.binaryOp?_unplaced, hop,
        toOption_bind, ihl, ihr]
  | block _ _ ih =>
      apply Tree.toOption_eval_of_evalNode
      intro room
      simp only [Tree.unplaced, evalNode, toOption_bind,
        toOption_forM_unplaced fun child member => ih child member room]
  | _ => exact Tree.toOption_eval_of_evalNode (fun _ => rfl) room

end Places

open Parser.State (initial finishes_program)

/-- A text has the tree that the grammar derives from its tokens, if it nests no deeper than is
allowed. -/
theorem parseProgram_of_program {source : String} {tree : Tree} {limits : Limits}
    (h : Grammar.Program (tokenize source) tree)
    (hallowed : (initial .program).peak (tokenize source) ≤ limits.nesting)
    (filename : Option String) : parseProgram source filename limits = .ok tree := by
  obtain ⟨last, hmoves, hfinish⟩ := finishes_program h
  have hrun := hmoves.run_of_peak hallowed []
  rw [List.append_nil, Parser.State.run, hfinish] at hrun
  exact parseProgram_of_run (congrArg Prod.fst hrun)

/-- A text whose tokens carry the words of an expression runs to the expression's value. -/
theorem run_of_spell {source : String} (e : Expr) (h : Spell (tokenize source) e.words)
    {limits : Limits} (hallowed : e.nesting ≤ limits.nesting) {v : Value}
    (hvalue : ∀ scope, e.tree.eval scope limits.evaluation = .ok v) (filename : String)
    (bindings : Entries Value) : run source filename bindings limits = .ok v := by
  obtain ⟨tree, hprogram, htree, hpeak⟩ := e.program_of_spell h
  have hparse := parseProgram_of_program hprogram (hpeak ▸ hallowed) (some filename)
  have hevaluate (scope : Scope) : tree.eval scope limits.evaluation = .ok v := by
    apply eq_ok_of_toOption
    rw [← (hprogram.sound (tokenize_fits source)).toOption_eval_unplaced, htree, hvalue]
    rfl
  unfold run
  rw [hparse]
  change (evaluate tree _ _ bindings limits >>= Operand.toValue).mapError Failure.reported = _
  rw [evaluate, hevaluate]
  rfl

/-- A value that holds no other values and, if it is a number, a finite one. -/
inductive Value.IsScalar : Value → Prop where
  | number {x : Float} : Number.isFinite x = true → IsScalar (.number x)
  | string (text : String) : IsScalar (.string text)
  | boolean (b : Bool) : IsScalar (.boolean b)
  | void : IsScalar .void

theorem spell_word (w : Word) : Spell (tokenize w.spelling) [w] := by
  have hspaced : spaced [w] = w.spelling := by simp [spaced]
  exact hspaced ▸ tokenize_spaced [w]

theorem scan_minus {c : Char} (hdigit : c.isDigit = true) (rest : List Char) :
    Lexeme.scan ('-' :: c :: rest) = .verbatim (.symbol .minus) ['-'] := by
  have hassign : '=' ≠ c := by
    rintro rfl
    cases hdigit
  simp [Lexeme.scan, Symbol.atFront?, Symbol.longestFirst, Symbol.spelling, hassign, isWordStart]

/-- A number behind its sign is read as two words. -/
theorem spell_signed (x : Magnitude) :
    Spell (tokenize ("-" ++ NumberStyle.printed.text x.value)) [.symbol .minus, .number x] := by
  obtain ⟨c, more, htext, hdigit⟩ := NumberStyle.printed_first x.isFinite x.not_negative
  have hsigned : ("-" ++ NumberStyle.printed.text x.value).toList = '-' :: c :: more := by
    rw [String.toList_append, htext]
    rfl
  have htrivia : triviaLength false ('-' :: c :: more) = 0 :=
    triviaLength_eq_zero _ rfl (by decide)
  have hminus := placedLexemes_scan {} htrivia
  rw [scan_minus hdigit] at hminus
  have hnumber (p : Position) := (Word.number x).placedLexemes_word .nil p
  simp only [Word.spelling, List.append_nil, htext] at hnumber
  rw [Spell, tokenize, lexemesOf, hsigned, hminus]
  change Token.content _ :: List.map _ (List.map _ (placedLexemes 0 _ (c :: more))) = _
  rw [hnumber]
  rfl

/-- A printed scalar is the text of an expression with this value. -/
theorem Value.IsScalar.exists_expr {v : Value} (h : v.IsScalar) :
    ∃ e : Expr, Spell (tokenize v.render) e.words ∧ e.nesting ≤ 1 ∧
      ∀ scope room, e.tree.eval scope (room + 2) = .ok v := by
  cases h with
  | @number x hfinite =>
      rw [Value.render]
      cases hsign : Number.isNegative x with
      | false =>
          let m : Magnitude := ⟨x, hfinite, hsign⟩
          exact ⟨.number m, spell_word (.number m), Nat.zero_le _, fun _ _ => rfl⟩
      | true =>
          let m : Magnitude := ⟨-x, Number.isFinite_neg hfinite,
            Number.not_isNegative_neg hfinite hsign⟩
          rw [NumberStyle.printed_negative hfinite hsign]
          refine ⟨.unary .minus (.number m), spell_signed m, Nat.le_refl _, fun scope room => ?_⟩
          have hvalue : (Expr.unary .minus (.number m)).tree.eval scope (room + 2) =
              .ok (Value.number (-(-x))) := rfl
          rw [hvalue, Number.neg_neg_self hfinite]
  | string text =>
      rw [Value.render]
      exact ⟨.string text, spell_word (.string text), Nat.zero_le _, fun _ _ => rfl⟩
  | boolean b =>
      cases b with
      | true =>
          exact ⟨.boolean true, spell_word (.keyword .trueWord), Nat.zero_le _, fun _ _ => rfl⟩
      | false =>
          exact ⟨.boolean false, spell_word (.keyword .falseWord), Nat.zero_le _, fun _ _ => rfl⟩
  | void => exact ⟨.void, spell_word (.keyword .voidWord), Nat.zero_le _, fun _ _ => rfl⟩

/-- Running the printed form of a scalar gives the scalar back, whatever names are given values: a
number with its sign and every other bit, a string with all its characters. -/
theorem printed_scalar_runs_to_itself (v : Value) (hscalar : v.IsScalar) (filename : String)
    (bindings : Entries Value) (limits : Limits) (hnesting : 1 ≤ limits.nesting)
    (hevaluation : 2 ≤ limits.evaluation) : run v.render filename bindings limits = .ok v := by
  obtain ⟨e, hspell, hdepth, hvalue⟩ := hscalar.exists_expr
  apply run_of_spell e hspell (Nat.le_trans hdepth hnesting)
  intro scope
  obtain ⟨room, hroom⟩ := Nat.exists_eq_add_of_le' hevaluation
  rw [hroom, hvalue]

/-- The negative zero is printed as `-0`, which runs to the negative zero and not to the other. -/
theorem printed_scalar_runs_to_itself_zero :
    (Value.number (-0.0)).IsScalar ∧ (Value.number (-0.0)).render = "-0" ∧
      run "-0" "main" [] {} = .ok (.number (-0.0)) := by
  have hscalar : (Value.number (-0.0)).IsScalar := .number (by decide +kernel)
  have hrender : (Value.number (-0.0)).render = "-0" := by decide +kernel
  refine ⟨hscalar, hrender, ?_⟩
  rw [← hrender]
  exact printed_scalar_runs_to_itself _ hscalar "main" [] {} (by decide) (by decide)

end Glass
