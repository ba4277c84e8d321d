import Glass.Proofs.ParserCompleteness

/-!
How deep parsing nests. The greatest depth that the machine reaches decides alone whether the nesting
allowance stops it, and how far an expression takes it above the depth it starts at depends on the
expression alone: a sign adds one, a group seventeen and a call eighteen to what stands inside.
-/

namespace Glass.Parser.State

open Glass.Grammar

/-- The greatest depth while the tokens are taken, the nesting allowance left out. -/
def peak (s : State) : (tokens : List Token) → Nat
  | [] => s.depth
  | t :: rest =>
      match s.step (s.depth + 18) t with
      | .shift next => max s.depth (next.peak rest)
      | _ => s.depth

theorem peak_cons {s next : State} {t : Token} (h : Transition s t next) (rest : List Token) :
    s.peak (t :: rest) = max s.depth (next.peak rest) := by
  have hstep : s.step (s.depth + 18) t = .shift next :=
    step_eq_shift_iff.mpr ⟨h, Or.inr h.depth_le⟩
  rw [peak, hstep]

theorem depth_le_peak (s : State) (ts : List Token) : s.depth ≤ s.peak ts := by
  cases ts with
  | nil => exact Nat.le_refl _
  | cons t ts =>
      rw [peak]
      split
      · exact Nat.le_max_left _ _
      · exact Nat.le_refl _

theorem Moves.depth_le_peak {s last : State} {ts : List Token} (h : Moves s ts last) :
    last.depth ≤ s.peak ts := by
  induction h with
  | nil => exact Nat.le_refl _
  | cons htransition _ ih =>
      rw [peak_cons htransition]
      exact Nat.le_trans ih (Nat.le_max_right _ _)

theorem Moves.peak_append {s middle : State} {ts : List Token} (h : Moves s ts middle)
    (us : List Token) : s.peak (ts ++ us) = max (s.peak ts) (middle.peak us) := by
  induction h with
  | nil => exact (Nat.max_eq_right (State.depth_le_peak _ us)).symm
  | cons htransition _ ih =>
      rw [List.cons_append, peak_cons htransition, peak_cons htransition, ih, Nat.max_assoc]

/-- A run whose greatest depth is allowed goes on behind the tokens. -/
theorem Moves.run_of_peak {s last : State} {ts : List Token} (h : Moves s ts last) {limit : Nat}
    (hpeak : s.peak ts ≤ limit) (rest : List Token) :
    s.run limit (ts ++ rest) = last.run limit rest := by
  induction h with
  | nil => rfl
  | @cons s next last t ts htransition _ ih =>
      rw [peak_cons htransition, Nat.max_le] at hpeak
      have hallowed : next.depth ≤ limit := Nat.le_trans (State.depth_le_peak next ts) hpeak.2
      have hstep : s.step limit t = .shift next :=
        step_eq_shift_iff.mpr ⟨htransition, Or.inr hallowed⟩
      rw [List.cons_append, State.run, hstep]
      exact ih hpeak.2

/-- A run whose greatest depth is not allowed is stopped for it. -/
theorem Moves.run_tooDeep {s last : State} {ts : List Token} (h : Moves s ts last) {limit : Nat}
    (hdepth : s.depth ≤ limit) (hpeak : limit < s.peak ts) (rest : List Token) :
    (s.run limit (ts ++ rest)).1 = .error .tooDeep := by
  induction h with
  | nil => exact absurd hdepth (Nat.not_le.mpr hpeak)
  | @cons s next last t ts htransition _ ih =>
      rw [peak_cons htransition] at hpeak
      rw [List.cons_append, State.run]
      rcases htransition.taken limit with hstep | ⟨hstep, _⟩
      · have hallowed : next.depth ≤ limit := by
          rcases (step_eq_shift_iff.mp hstep).2 with hle | hle
          · exact Nat.le_trans hle hdepth
          · exact hle
        rw [hstep]
        exact ih hallowed (by omega)
      · rw [hstep]

theorem Ready.signed {s : State} (h : s.Ready unaryLevel) (sign : Token) :
    Ready { s with inner := { s.inner with signs := sign :: s.inner.signs }, phase := .operand }
      unaryLevel where
  awaits := trivial
  floor_le := h.floor_le
  signs := fun hlevel => absurd hlevel (Nat.lt_irrefl _)
  looser := h.looser

/-- What the open brackets and the signs in front of them use up. -/
def bracketsDepth (outer : List (Pending × Bracket)) : Nat :=
  outer.foldr (fun frame total => frame.1.signs.length + frame.2.cost + total) 0

theorem depth_of_signs {s : State} (h : s.inner.signs = []) : s.depth = bracketsDepth s.outer := by
  rw [depth_eq, h, List.length_nil, Nat.zero_add, bracketsDepth]

/-- Wherever these tokens may stand as an expression of the level, they take the depth up by so
much. -/
def Climbs (level : Nat) (ts : List Token) (nesting : Nat) : Prop :=
  ∀ s : State, s.Ready level → s.peak ts = s.depth + nesting

namespace Climbs

theorem loosen {level looser : Nat} {ts : List Token} {nesting : Nat} (h : Climbs level ts nesting)
    (hle : looser ≤ level) : Climbs looser ts nesting := by
  induction hle with
  | refl => exact h
  | step _ ih => exact ih fun s hready => h s hready.tighten

/-- A transition that leaves an operand ends the climb. -/
theorem single {level : Nat} {t : Token}
    (h : ∀ s : State, s.Ready level → ∃ next, Transition s t next ∧ next.depth ≤ s.depth) :
    Climbs level [t] 0 := by
  intro s hready
  obtain ⟨next, htransition, hle⟩ := h s hready
  rw [peak_cons htransition, peak, Nat.max_eq_left hle]
  rfl

theorem literal {t : Token} {tree : Tree} (h : Literal t tree) : Climbs atomLevel [t] 0 :=
  single fun s hready =>
    ⟨_, .literal hready.awaits h, s.depth_finishOperand_le tree⟩

theorem name {t : Token} (h : t.kind = .identifier) : Climbs atomLevel [t] 0 :=
  single fun _ hready => ⟨_, .name hready.awaits h, Nat.le_refl _⟩

theorem signed {op : Token} {ts : List Token} {nesting : Nat} (hop : op.kind ∈ prefixes)
    (h : Climbs unaryLevel ts nesting) : Climbs unaryLevel (op :: ts) (nesting + 1) := by
  intro s hready
  rw [peak_cons (.sign hready.awaits hop hready.floor_le), h _ (hready.signed op)]
  simp only [depth_eq, List.length_cons]
  omega

theorem operation {level : Nat} {ts us : List Token} {op : Token} {left : Tree} {m n : Nat}
    (hleft : Expression level ts left) (hop : op.kind ∈ operators level)
    (hfirst : Climbs level ts m) (hsecond : Climbs (level + 1) us n) :
    Climbs level (ts ++ op :: us) (max m n) := by
  obtain ⟨binary, hbinary, rfl⟩ := mem_operators_iff.mp hop
  intro s hready
  obtain ⟨middle, operand, hmoves, hsame, hoperand, _⟩ := takes_of_expression hleft hready
  have hfloor : middle.floor ≤ binary.level := by
    rw [hsame.floor_eq]
    exact hready.floor_le
  -- The right operand starts at the depth that the left one started at.
  obtain ⟨next, htransition, hnext, hdepth⟩ : ∃ next, Transition middle op next ∧
      next.Ready (binary.level + 1) ∧ next.depth = s.depth := by
    refine ⟨_, .operator hoperand hbinary hfloor,
      ⟨trivial, Nat.le_succ_of_le hfloor, fun _ => rfl, ?_⟩, ?_⟩
    · intro o member
      cases member
      exact Nat.lt_succ_self _
    · rw [depth_of_signs (hready.signs binary.level_lt_unaryLevel), ← hsame.outer]
      exact depth_of_signs rfl
  have hreached := hmoves.depth_le_peak
  rw [hfirst s hready] at hreached
  rw [hmoves.peak_append, hfirst s hready, peak_cons htransition, hsecond next hnext, hdepth]
  omega

theorem group {opening closing : Token} {ts : List Token} {tree : Tree} {nesting : Nat}
    (hopening : opening.kind = .symbol .leftParen) (hinner : Expression 1 ts tree)
    (hclosing : closing.kind = .symbol .rightParen) (h : Climbs 1 ts nesting) :
    Climbs atomLevel (opening :: (ts ++ [closing])) (nesting + 17) := by
  intro s hready
  have hinside := ready_inside s (s.inner, .group) s.outer .operand trivial
  obtain ⟨last, operand, hmoves, hsame, hoperand, _⟩ :=
    (takes_of_expression hinner hinside).whole rfl
  have hclose := Transition.closeGroup hoperand hsame.outer hclosing
  have hend := depth_closeBracket_le hsame.outer (last.whole operand)
  have hreached := hmoves.depth_le_peak
  rw [h _ hinside] at hreached
  rw [peak_cons (.openGroup hready.awaits hopening), hmoves.peak_append, h _ hinside,
    peak_cons hclose, peak]
  rw [depth_openBracket] at hreached ⊢
  simp only [Bracket.cost] at hreached ⊢
  omega

theorem emptyCall {name opening closing : Token} (hname : name.kind = .identifier)
    (hopening : opening.kind = .symbol .leftParen) (hclosing : closing.kind = .symbol .rightParen) :
    Climbs atomLevel [name, opening, closing] 18 := by
  intro s hready
  have hopen : Transition { s with phase := .named name } opening { s with
      outer := (s.inner, .call name []) :: s.outer, inner := {}, phase := .argument } :=
    .openCall rfl hopening
  have hclose := Transition.closeEmptyCall (s := { s with
    outer := (s.inner, .call name []) :: s.outer, inner := {}, phase := .argument }) rfl rfl hclosing
  have hnamed : State.depth { s with phase := .named name } = s.depth := rfl
  have hend := s.depth_finishOperand_le (.functionCall (.ofToken name) [] (.ofToken closing))
  rw [peak_cons (.name hready.awaits hname), peak_cons hopen, peak_cons hclose, peak, hnamed,
    depth_openBracket]
  simp only [Bracket.cost]
  change max _ (max _ (max _ (s.finishOperand _).depth)) = _
  omega

end Climbs

/-- How far the arguments behind the first one take the depth up. -/
inductive ClimbsMore : List Item → Nat → Prop where
  | nil : ClimbsMore [] 0
  | cons {item : Item} {items : List Item} {m n : Nat} :
      Climbs 1 item.tokens m → ClimbsMore items n → ClimbsMore (item :: items) (max m n)

/-- Every argument starts at the depth of the call, so beyond what was reached before only the
deepest of them counts. -/
theorem ClimbsMore.peak {items : List Item} {nesting : Nat} (h : ClimbsMore items nesting)
    (hcommas : ∀ item ∈ items, item.separator.kind = .symbol .comma)
    (hitems : ∀ item ∈ items, Expression 1 item.tokens item.tree) {s : State} {name : Token}
    {saved : Pending} {arguments : List Tree} {outer : List (Pending × Bracket)} {operand : Tree}
    (houter : s.outer = (saved, .call name arguments) :: outer)
    (hoperand : s.operand? = some operand) {reached : Nat} (hle : bracketsDepth s.outer ≤ reached)
    (hreached : s.depth ≤ reached) :
    max reached (s.peak (items.flatMap fun item => item.separator :: item.tokens)) =
      max reached (bracketsDepth s.outer + nesting) := by
  induction h generalizing s arguments operand reached with
  | nil =>
      simp only [List.flatMap_nil, State.peak]
      omega
  | @cons item items m n hitem _ ih =>
      obtain ⟨hcomma, hcommas⟩ := List.forall_mem_cons.mp hcommas
      obtain ⟨hexpression, hitems⟩ := List.forall_mem_cons.mp hitems
      have hinside := ready_inside s (saved, .call name (s.whole operand :: arguments)) outer
        .operand trivial
      obtain ⟨middle, operand', hmoves, hsame, hoperand', _⟩ :=
        takes_of_expression hexpression hinside
      have hdepth : State.depth { s with
          outer := (saved, .call name (s.whole operand :: arguments)) :: outer
          inner := {}, phase := .operand } = bracketsDepth s.outer := by
        rw [depth_of_signs rfl, houter]
        rfl
      have hbrackets : bracketsDepth middle.outer = bracketsDepth s.outer := by
        rw [hsame.outer, houter]
        rfl
      have hpeak := hitem _ hinside
      have hmiddle := hmoves.depth_le_peak
      rw [hdepth] at hpeak
      rw [hpeak] at hmiddle
      have hrest := @ih hcommas hitems middle _ _ hsame.outer hoperand'
        (max reached (bracketsDepth s.outer + m)) (by omega) (by omega)
      rw [List.flatMap_cons, List.cons_append, peak_cons (.comma hoperand houter hcomma),
        hmoves.peak_append, hpeak]
      omega

theorem Climbs.call {name opening closing : Token} {ts : List Token} {first : Tree}
    {more : List Item} {m n : Nat} (hname : name.kind = .identifier)
    (hopening : opening.kind = .symbol .leftParen) (hfirst : Expression 1 ts first)
    (hcommas : ∀ item ∈ more, item.separator.kind = .symbol .comma)
    (hitems : ∀ item ∈ more, Expression 1 item.tokens item.tree)
    (hclosing : closing.kind = .symbol .rightParen) (hclimb : Climbs 1 ts m)
    (hmore : ClimbsMore more n) :
    Climbs atomLevel (name :: opening :: (rowTokens ts more ++ [closing])) (max m n + 18) := by
  intro s hready
  have hopen : Transition { s with phase := .named name } opening { s with
      outer := (s.inner, .call name []) :: s.outer, inner := {}, phase := .argument } :=
    .openCall rfl hopening
  have hinside := ready_inside s (s.inner, .call name []) s.outer .argument trivial
  obtain ⟨middle, operand, hmoves, hsame, hoperand, hwhole⟩ :=
    (takes_of_expression hfirst hinside).whole rfl
  obtain ⟨last, arguments, operand', hmoves', _, _, _, houter, hoperand', _⟩ :=
    moves_arguments hcommas
      (fun item member s hready => takes_of_expression (hitems item member) hready)
      hsame.outer hoperand hwhole
  have hclose := Transition.closeCall hoperand' houter hclosing
  have hend := depth_closeBracket_le houter
    (.functionCall (.ofToken name) (last.whole operand' :: arguments).reverse (.ofToken closing))
  have hnamed : State.depth { s with phase := .named name } = s.depth := rfl
  have hdepth : State.depth { s with
      outer := (s.inner, .call name []) :: s.outer, inner := {}, phase := .argument } =
      s.depth + 18 := depth_openBracket s (.call name []) .argument
  have hpeak := hclimb _ hinside
  have hmiddle := hmoves.depth_le_peak
  have hlast := hmoves'.depth_le_peak
  rw [hdepth] at hpeak
  rw [hpeak] at hmiddle
  have hbrackets : bracketsDepth middle.outer = s.depth + 18 := by
    rw [hsame.outer, ← hdepth]
    exact (depth_of_signs rfl).symm
  have hrow := hmore.peak hcommas hitems hsame.outer hoperand (by omega) hmiddle
  rw [rowTokens, List.append_assoc, peak_cons (.name hready.awaits hname), peak_cons hopen,
    hmoves.peak_append, hmoves'.peak_append, peak_cons hclose, State.peak, hnamed, hpeak]
  omega

end Glass.Parser.State
