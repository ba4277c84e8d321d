import Glass.Parser
import Glass.Proofs.ParserSoundness
import Glass.Proofs.Tokenization

/-!
Where parsing stops. A fault other than too deep a nesting blames the first token that cannot follow
the tokens before it, or the end of the input. What follows that token has no part in the fault, and
what precedes it can be completed: from every state a number, if an operand is due, and a closing
bracket for each open one lead to a program.
-/

namespace Glass.Parser

/-- The fault lies with the token. -/
inductive Fault.Blames : Fault → Token → Prop where
  | unexpected {expected : Option Kind} {t : Token} : Blames (.unexpected expected t) t
  | flawed {t : Token} : t.kind.isFlaw = true → Blames (.flawed t) t
  | unsupported {t : Token} : Blames (.unsupported t) t

namespace State

theorem step_eq_reject {limit : Nat} {s : State} {t : Token} {fault : Fault} {taken : Bool}
    (h : s.step limit t = .reject fault taken) : fault = .tooDeep ∨ fault.Blames t := by
  have houtcome := step_outcome limit s t
  rw [h] at houtcome
  cases houtcome with
  | tooDeep => exact Or.inl rfl
  | flawed hflaw => exact Or.inr (.flawed hflaw)
  | unsupported => exact Or.inr .unsupported
  | unexpected => exact Or.inr .unexpected

theorem Shifts.single {limit : Nat} {s next : State} {t : Token} (h : Transition s t next)
    (hdepth : next.depth ≤ s.depth) : Shifts limit s [t] next :=
  .cons (step_eq_shift_iff.mpr ⟨h, Or.inl hdepth⟩) .nil

/-- Behind an operand one closing token for each open bracket closes them all. -/
theorem exists_closed (limit : Nat) {s : State} {operand : Tree} (closing : Token)
    (hclosing : closing.kind = .symbol .rightParen) (hoperand : s.operand? = some operand) :
    ∃ more last operand', Shifts limit s more last ∧ last.outer = [] ∧
      last.operand? = some operand' := by
  induction houter : s.outer generalizing s operand with
  | nil => exact ⟨[], s, operand, .nil, houter, hoperand⟩
  | cons frame outer ih =>
      obtain ⟨saved, bracket⟩ := frame
      have hnext : ∃ next operand', Shifts limit s [closing] next ∧ next.outer = outer ∧
          next.operand? = some operand' := by
        cases bracket with
        | group =>
            exact ⟨_, _, .single (.closeGroup hoperand houter hclosing)
              (depth_closeBracket_le houter _), rfl, rfl⟩
        | call name arguments =>
            exact ⟨_, _, .single (.closeCall hoperand houter hclosing)
              (depth_closeBracket_le houter _), rfl, rfl⟩
      obtain ⟨next, operand', hshift, hrest, hoperand'⟩ := hnext
      obtain ⟨more, last, operand'', hshifts, hclosed, hoperand''⟩ := ih hoperand' hrest
      exact ⟨closing :: more, last, operand'', hshift.append hshifts, hclosed, hoperand''⟩

/-- A token that a program can be completed with; where it stands does not matter. -/
def completing (kind : Kind) (payload : Payload) : Token :=
  ⟨kind, payload, { start := 0, stop := 0 }, 1, 1⟩

/-- Every state can be completed, and without nesting deeper. -/
theorem exists_completion (limit : Nat) (s : State) :
    ∃ more tree, s.run limit more = (.ok tree, []) := by
  have hoperand : ∃ front next operand, Shifts limit s front next ∧
      next.operand? = some operand := by
    have hawaits (h : s.Awaits) : ∃ front next operand, Shifts limit s front next ∧
        next.operand? = some operand :=
      ⟨[completing .number (.number 0)], _, _,
        .single (.literal h (.number rfl)) (depth_finishOperand_le s _), rfl⟩
    cases hphase : s.phase with
    | named name => exact ⟨[], s, _, .nil, by rw [operand?, hphase]⟩
    | complete tree => exact ⟨[], s, _, .nil, by rw [operand?, hphase]⟩
    | _ => exact hawaits (by simp [Awaits, hphase])
  obtain ⟨front, next, operand, hfront, hoperand⟩ := hoperand
  obtain ⟨more, last, operand', hmore, houter, hoperand'⟩ :=
    exists_closed limit (completing (.symbol .rightParen) (.text ")")) rfl hoperand
  have hrun := (hfront.append hmore).run []
  rw [List.append_nil, run, finish_of_operand hoperand', finishWith, houter] at hrun
  cases hstatements : last.statements with
  | nil => exact ⟨front ++ more, _, by rw [hrun, hstatements]; rfl⟩
  | cons => exact ⟨front ++ more, _, by rw [hrun, hstatements]; rfl⟩

end State

end Glass.Parser

namespace Glass

/-- The causes of faults that lie with a token. -/
def Cause.blamesToken : Cause → Bool
  | .unexpectedToken .. | .unsupported _ | .unknownToken _ | .unclosedString | .unknownEscape _ =>
      true
  | _ => false

namespace Parser

/-- The diagnostic of a fault that lies with a token stands where the token does. -/
theorem failure_of_blames (p : Parser) {fault : Fault} {t : Token} (h : fault.Blames t) :
    ∃ cause, cause.blamesToken = true ∧
      p.failure fault = .diagnostic ⟨cause, some p.source, some t.span, p.filename⟩ := by
  cases h with
  | unexpected => exact ⟨_, rfl, rfl⟩
  | unsupported => exact ⟨_, rfl, rfl⟩
  | flawed hflaw =>
      cases hkind : t.kind with
      | flaw f =>
          cases f with
          | unknownToken =>
              exact ⟨.unknownToken _, rfl, by rw [failure, flawDiagnostic, hkind]; rfl⟩
          | unclosedString =>
              exact ⟨.unclosedString, rfl, by rw [failure, flawDiagnostic, hkind]⟩
          | invalidEscape =>
              exact ⟨.unknownEscape _, rfl, by rw [failure, flawDiagnostic, hkind]⟩
      | _ => simp [hkind, Kind.isFlaw] at hflaw

theorem program_eq_error {p : Parser} {limits : Limits} {failure : Failure}
    (h : p.program limits = .error failure) :
    ∃ fault, ((State.initial .program).run limits.nesting p.tokens).1 = .error fault ∧
      p.failure fault = failure := by
  change ((State.initial .program).run limits.nesting p.tokens).1.mapError p.failure = _ at h
  cases hresult : ((State.initial .program).run limits.nesting p.tokens).1 with
  | ok tree =>
      rw [hresult] at h
      cases h
  | error fault =>
      rw [hresult] at h
      exact ⟨fault, rfl, Except.error.inj h⟩

/-- A program that fails nests too deeply, ends too early, or has a token that a step refuses and
that is to blame. -/
theorem program_fails {p : Parser} {limits : Limits} {failure : Failure}
    (h : p.program limits = .error failure) :
    failure = .tooDeep ∨ failure = .diagnostic (.unexpectedEnd p.filename (some p.source)) ∨
      ∃ t ∈ p.tokens, ∃ (s : State) (fault : Fault) (taken : Bool),
        s.step limits.nesting t = .reject fault taken ∧ fault.Blames t ∧
          p.failure fault = failure := by
  obtain ⟨fault, hrun, rfl⟩ := program_eq_error h
  rcases State.run_eq_error hrun with ⟨rfl, _⟩ | ⟨front, t, rest, s, taken, htokens, _, hstep⟩
  · exact Or.inr (Or.inl rfl)
  · rcases State.step_eq_reject hstep with rfl | hblames
    · exact Or.inl rfl
    · have hmember : t ∈ p.tokens := by
        rw [htokens]
        exact List.mem_append_right front List.mem_cons_self
      exact Or.inr (Or.inr ⟨t, hmember, s, fault, taken, hstep, hblames, rfl⟩)

/-- What follows the token to blame does not count. -/
theorem program_of_reject (p : Parser) {limits : Limits} {front rest : List Token} {t : Token}
    {last : State} {fault : Fault} {taken : Bool}
    (hshifts : State.Shifts limits.nesting (.initial .program) front last)
    (hstep : last.step limits.nesting t = .reject fault taken) :
    { p with tokens := front ++ t :: rest }.program limits = .error (p.failure fault) := by
  have hrun := (hshifts.run (t :: rest)).trans (State.Ends.reject hstep).run
  simp only [program, parse, hrun]
  rfl

/-- Tokens that can be taken are the front of a program. -/
theorem exists_program (p : Parser) {limits : Limits} {front : List Token} {last : State}
    (hshifts : State.Shifts limits.nesting (.initial .program) front last) :
    ∃ more tree, { p with tokens := front ++ more }.program limits = .ok tree := by
  obtain ⟨more, tree, hmore⟩ := State.exists_completion limits.nesting last
  refine ⟨more, tree, ?_⟩
  simp only [program, parse, hshifts.run more, hmore]
  rfl

end Parser

/-- Parsing stops at the first token that cannot be continued. A diagnostic that blames a token has
the token's span; any tokens that agree up to that one give the same diagnostic, and those before it
are the front of a program. If the end comes too early, all the tokens are. -/
theorem parse_stops_at_first_fault (source : String) (filename : Option String) (limits : Limits)
    (d : Diagnostic) (h : parseProgram source filename limits = .error (.diagnostic d)) :
    (d.cause.blamesToken = true →
      (∃ (k : Nat) (t : Token), (tokenize source)[k]? = some t ∧ d.span = some t.span) ∧
      ∀ (k : Nat) (t : Token), (tokenize source)[k]? = some t → d.span = some t.span →
        (∀ us : List Token, us.take (k + 1) = (tokenize source).take (k + 1) →
          (Parser.mk source filename us).program limits = .error (.diagnostic d)) ∧
        ∃ more tree, (Parser.mk source filename ((tokenize source).take k ++ more)).program limits =
          .ok tree) ∧
    (d.cause.blamesToken = false →
      (∃ name, d.cause = .unexpectedEnd name) ∧
      ∃ more tree, (Parser.mk source filename (tokenize source ++ more)).program limits =
        .ok tree) := by
  obtain ⟨fault, hrun, hfailure⟩ := Parser.program_eq_error h
  rcases Parser.State.run_eq_error hrun with ⟨rfl, last, hshifts⟩ | hstop
  · obtain rfl := Failure.diagnostic.inj hfailure
    refine ⟨nofun, fun _ => ⟨⟨_, rfl⟩, ?_⟩⟩
    exact Parser.exists_program (.ofText source filename) hshifts
  · obtain ⟨front, t, rest, last, taken, htokens, hshifts, hstep⟩ := hstop
    change tokenize source = front ++ t :: rest at htokens
    rcases Parser.State.step_eq_reject hstep with rfl | hblames
    · cases hfailure
    · obtain ⟨cause, hcause, hdiagnostic⟩ :=
        Parser.failure_of_blames (.ofText source filename) hblames
      obtain rfl := Failure.diagnostic.inj (hdiagnostic.symm.trans hfailure)
      have hat : (tokenize source)[front.length]? = some t := by simp [htokens]
      refine ⟨fun _ => ⟨⟨front.length, t, hat, rfl⟩, ?_⟩, fun hfalse => ?_⟩
      · intro k u hu hspan
        obtain rfl : k = front.length :=
          tokenize_span_injective hu hat (Option.some.inj hspan).symm
        rw [htokens, List.take_left]
        refine ⟨?_, Parser.exists_program (.ofText source filename) hshifts⟩
        intro us hus
        rw [List.take_length_add_append] at hus
        have hfront : us = front ++ t :: us.drop (front.length + 1) := by
          calc
            us = us.take (front.length + 1) ++ us.drop (front.length + 1) :=
              (List.take_append_drop _ us).symm
            _ = front ++ t :: us.drop (front.length + 1) := by
              rw [hus]
              simp
        rw [hfront, ← hfailure]
        exact Parser.program_of_reject (.ofText source filename) hshifts hstep
      · rw [hcause] at hfalse
        cases hfalse

/-- In `f(a, "x` the string is to blame, and `f(a,` is the front of a program. -/
theorem parse_stops_at_first_fault_unclosed :
    parseProgram "f(a, \"x" none {} = .error (.diagnostic
        ⟨.unclosedString, some "f(a, \"x", some { start := 5, stop := 7 }, none⟩) ∧
      ∃ more tree, (Parser.mk "f(a, \"x" none
        ((tokenize "f(a, \"x").take 4 ++ more)).program {} = .ok tree := by
  refine ⟨by rfl, ?_⟩
  exact (((parse_stops_at_first_fault "f(a, \"x" none {} _ (by rfl)).1 (by rfl)).2 4 _ (by rfl)
    (by rfl)).2

end Glass
