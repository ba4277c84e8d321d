import Glass.Proofs.Transition

/-!
Runs of the parsing machine. A run takes tokens one after another and then stops, at a token or at
the end; how it goes on depends only on the state it has reached and on the tokens to come. With an
allowance of eighteen for each token the nesting is never what stops it.
-/

namespace Glass.Parser.State

open Glass.Grammar

/-- The machine takes all of the tokens, the nesting allowance left out. -/
inductive Moves : State → List Token → State → Prop where
  | nil {s : State} : Moves s [] s
  | cons {s next last : State} {t : Token} {ts : List Token} :
      Transition s t next → Moves next ts last → Moves s (t :: ts) last

/-- The machine takes all of the tokens within the nesting allowance. -/
inductive Shifts (limit : Nat) : State → List Token → State → Prop where
  | nil {s : State} : Shifts limit s [] s
  | cons {s next last : State} {t : Token} {ts : List Token} :
      s.step limit t = .shift next → Shifts limit next ts last → Shifts limit s (t :: ts) last

/-- How a run ends that takes no further token. -/
inductive Ends (limit : Nat) (s : State) :
    List Token → Except Fault Tree × List Token → Prop where
  | finish : Ends limit s [] (s.finish, [])
  | accept {t : Token} {rest : List Token} {tree : Tree} :
      s.step limit t = .accept tree → Ends limit s (t :: rest) (.ok tree, t :: rest)
  | reject {t : Token} {rest : List Token} {fault : Fault} {taken : Bool} :
      s.step limit t = .reject fault taken →
      Ends limit s (t :: rest) (.error fault, if taken then rest else t :: rest)

theorem Moves.single {s next : State} {t : Token} (h : Transition s t next) :
    Moves s [t] next :=
  .cons h .nil

theorem Moves.append {s middle last : State} {ts us : List Token}
    (first : Moves s ts middle) (second : Moves middle us last) : Moves s (ts ++ us) last := by
  induction first with
  | nil => exact second
  | cons h _ ih => exact .cons h (ih second)

theorem Shifts.append {limit : Nat} {s middle last : State} {ts us : List Token}
    (first : Shifts limit s ts middle) (second : Shifts limit middle us last) :
    Shifts limit s (ts ++ us) last := by
  induction first with
  | nil => exact second
  | cons hstep _ ih => exact .cons hstep (ih second)

theorem Shifts.moves {limit : Nat} {s last : State} {ts : List Token}
    (h : Shifts limit s ts last) : Moves s ts last := by
  induction h with
  | nil => exact .nil
  | cons hstep _ ih => exact .cons (step_eq_shift_iff.mp hstep).1 ih

theorem Shifts.run {limit : Nat} {s last : State} {ts : List Token} (h : Shifts limit s ts last)
    (rest : List Token) : s.run limit (ts ++ rest) = last.run limit rest := by
  induction h with
  | nil => rfl
  | cons hstep _ ih => rw [List.cons_append, State.run, hstep, ← ih]

theorem Ends.run {limit : Nat} {s : State} {ts : List Token}
    {result : Except Fault Tree × List Token} (h : Ends limit s ts result) :
    s.run limit ts = result := by
  cases h with
  | finish => rfl
  | accept hstep => rw [State.run, hstep]
  | @reject _ _ _ taken hstep =>
      rw [State.run, hstep]
      cases taken <;> rfl

/-- A run takes some of the tokens and ends there. -/
theorem exists_shifts_ends (limit : Nat) (s : State) (ts : List Token) :
    ∃ front rest last, ts = front ++ rest ∧ Shifts limit s front last ∧
      Ends limit last rest (s.run limit ts) := by
  induction ts generalizing s with
  | nil => exact ⟨[], [], s, rfl, .nil, .finish⟩
  | cons t ts ih =>
      cases hstep : s.step limit t with
      | shift next =>
          obtain ⟨front, rest, last, rfl, hshifts, hends⟩ := ih next
          refine ⟨t :: front, rest, last, rfl, .cons hstep hshifts, ?_⟩
          rw [State.run, hstep]
          exact hends
      | accept tree =>
          have hends : Ends limit s (t :: ts) (.ok tree, t :: ts) := .accept hstep
          exact ⟨[], t :: ts, s, rfl, .nil, by rwa [hends.run]⟩
      | reject fault taken =>
          have hends : Ends limit s (t :: ts) (.error fault, if taken then ts else t :: ts) :=
            .reject hstep
          exact ⟨[], t :: ts, s, rfl, .nil, by rwa [hends.run]⟩

/-- A run over tokens that can be taken goes on behind them, unless they nest too deeply. -/
theorem Moves.run {s last : State} {ts : List Token} (h : Moves s ts last) (limit : Nat)
    (rest : List Token) :
    s.run limit (ts ++ rest) = last.run limit rest ∨
      (s.run limit (ts ++ rest)).1 = .error .tooDeep := by
  induction h with
  | nil => exact Or.inl rfl
  | cons htransition _ ih =>
      rw [List.cons_append, State.run]
      rcases htransition.taken limit with hstep | ⟨hstep, _⟩
      · rw [hstep]
        exact ih
      · rw [hstep]
        exact Or.inr rfl

theorem Moves.depth_le {s last : State} {ts : List Token} (h : Moves s ts last) :
    last.depth ≤ s.depth + 18 * ts.length := by
  induction h with
  | nil => exact Nat.le_add_right _ _
  | cons htransition _ ih =>
      have hstep := htransition.depth_le
      rw [List.length_cons]
      omega

/-- Input can only end too early. -/
theorem finish_eq_error {s : State} {fault : Fault} (h : s.finish = .error fault) :
    fault = .endOfInput := by
  have hwith {operand : Tree} (h : s.finishWith operand = .error fault) : fault = .endOfInput := by
    unfold finishWith at h
    split at h
    · exact (Except.error.inj h).symm
    · dsimp only at h
      split at h <;> cases h
  unfold finish at h
  split at h
  · split at h
    · exact (Except.error.inj h).symm
    · cases h
  · exact (Except.error.inj h).symm
  · exact (Except.error.inj h).symm
  · exact hwith h
  · exact hwith h

/-- A run fails at the end, or at a token behind others that were all taken. -/
theorem run_eq_error {limit : Nat} {s : State} {ts : List Token} {fault : Fault}
    (h : (s.run limit ts).1 = .error fault) :
    (fault = .endOfInput ∧ ∃ last, Shifts limit s ts last) ∨
      ∃ front t rest last taken, ts = front ++ t :: rest ∧ Shifts limit s front last ∧
        last.step limit t = .reject fault taken := by
  obtain ⟨front, back, last, rfl, hshifts, hends⟩ := exists_shifts_ends limit s ts
  generalize s.run limit (front ++ back) = result at h hends
  cases hends with
  | finish =>
      refine Or.inl ⟨finish_eq_error h, last, ?_⟩
      rwa [List.append_nil]
  | accept => cases h
  | @reject t rest _ taken hstep =>
      obtain rfl := Except.error.inj h
      exact Or.inr ⟨front, t, rest, last, taken, rfl, hshifts, hstep⟩

/-- Eighteen for each token is allowance enough. -/
theorem run_ne_tooDeep {limit : Nat} {s : State} {ts : List Token}
    (hlimit : s.depth + 18 * ts.length ≤ limit) : (s.run limit ts).1 ≠ .error .tooDeep := by
  intro hfault
  rcases run_eq_error hfault with ⟨hend, _⟩ | ⟨front, t, rest, last, taken, rfl, hshifts, hstep⟩
  · cases hend
  · have houtcome := step_outcome limit last t
    rw [hstep] at houtcome
    cases houtcome with
    | tooDeep htransition hdeep =>
        have hreached := hshifts.moves.depth_le
        have hnext := htransition.depth_le
        simp only [List.length_append, List.length_cons] at hlimit
        omega

end Glass.Parser.State
