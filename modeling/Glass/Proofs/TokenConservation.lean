import Glass.Proofs.ParseFaults
import Glass.Reader

/-!
No token is lost by reading. A reader does what the parser does that has all the tokens ahead at hand,
so that each step, whether it succeeds or fails, takes some tokens off the front and leaves the
others. Which ones it takes can be told from what it answers: the token that is returned or reported
as flawed, the tokens that derive the tree, or those up to the one that is to blame.
-/

namespace Glass.Parser

open Grammar

namespace State

/-- On the way to an expression there are no statements, and nothing is assigned. -/
def Bare (s : State) : Prop :=
  ∀ level, s.goal = .expression level → s.statements = [] ∧ s.target = none

theorem bare_initial (goal : Goal) : (initial goal).Bare := by
  intro level _
  cases goal <;> exact ⟨rfl, rfl⟩

theorem bare_inCall (name : Token) : (inCall name).Bare :=
  fun _ _ => ⟨rfl, rfl⟩

theorem Transition.bare {s next : State} {t : Token} (h : Transition s t next) (hbare : s.Bare) :
    next.Bare := by
  intro level hgoal
  cases h with
  | assign _ _ hstatement => exact absurd hgoal (hstatement level)
  | semicolon => cases hgoal
  | _ => exact hbare level hgoal

theorem reached?_eq_some {s : State} {tree : Tree} (h : s.reached? = some tree) :
    ∃ level operand, s.goal = .expression level ∧ unaryLevel ≤ level ∧ s.outer = [] ∧
      s.phase = .complete operand ∧ tree = s.whole operand := by
  unfold reached? at h
  split at h
  · rename_i level operand hgoal houter hphase
    split at h
    · exact ⟨level, operand, hgoal, ‹_›, houter, hphase, (Option.some.inj h).symm⟩
    · cases h
  · cases h

/-- Whatever follows a goal that is reached, it is left where it is. -/
theorem run_of_reached {s : State} {tree : Tree} (h : s.reached? = some tree) (hbare : s.Bare)
    (limit : Nat) (ts : List Token) : s.run limit ts = (.ok tree, ts) := by
  obtain ⟨level, operand, hgoal, hlevel, houter, hphase, rfl⟩ := reached?_eq_some h
  obtain ⟨hstatements, htarget⟩ := hbare level hgoal
  cases ts with
  | nil =>
      simp only [run, finish, hphase, finishWith, houter, hstatements, statementOf, htarget]
      rfl
  | cons t rest =>
      have hfloor : s.floor = level := by simp [floor, houter, hgoal, Goal.level]
      have hstep : s.step limit t = .accept (s.whole operand) := by
        simp only [step, hphase, afterOperand]
        split
        · rename_i op _
          have hop := op.level_lt_unaryLevel
          rw [if_neg (by omega)]
          rfl
        · simp only [houter, afterExpression, hgoal]
          rfl
      rw [run, hstep]

/-- The tokens that the machine takes of those it is given. -/
def consumed (limit : Nat) : (s : State) → (tokens : List Token) → List Token
  | _, [] => []
  | s, t :: rest =>
      match s.step limit t with
      | .shift next => t :: consumed limit next rest
      | .reject _ true => [t]
      | _ => []

theorem consumed_append_run (limit : Nat) (s : State) (ts : List Token) :
    s.consumed limit ts ++ (s.run limit ts).2 = ts := by
  induction ts generalizing s with
  | nil => rfl
  | cons t rest ih =>
      rw [consumed, run]
      cases s.step limit t with
      | shift next => exact congrArg (t :: ·) (ih next)
      | accept tree => rfl
      | reject fault taken => cases taken <;> rfl

theorem Shifts.consumed {limit : Nat} {s last : State} {ts : List Token} (h : Shifts limit s ts last)
    (rest : List Token) :
    s.consumed limit (ts ++ rest) = ts ++ last.consumed limit rest := by
  induction h with
  | nil => rfl
  | cons hstep _ ih =>
      rw [List.cons_append, State.consumed, hstep]
      exact congrArg (_ :: ·) ih

/-- The tokens that a run takes complete a derivation of its tree. -/
theorem Reads.consumed {s : State} {limit : Nat} {ts us : List Token} {tree : Tree}
    (h : Reads s ts) (hrun : (s.run limit us).1 = .ok tree) :
    Derives s.goal (ts ++ s.consumed limit us) tree := by
  obtain ⟨front, htokens, hderives, _⟩ := h.run (Prod.ext hrun rfl)
  have hconsumed : s.consumed limit us = front :=
    List.append_cancel_right ((consumed_append_run limit s us).trans htokens)
  rwa [hconsumed]

theorem reads_inCall {name opening : Token} (hname : name.kind = .identifier)
    (hopening : opening.kind = .symbol .leftParen) : Reads (inCall name) [name, opening] := by
  have houter : BaseRead (inCall name).goal [] none [({}, .call name [])] _ :=
    .intro (.expression rfl rfl (Nat.le_refl _)) .empty .none
      (.cons .nil (.empty _) (.call hname hopening .empty))
  exact @Reads.intro (inCall name) _ _ _ houter (.empty _) (.argument rfl rfl)

end State

/-- How a token is refused: it is left if it stands for a closing bracket, and else it is taken. -/
def Refuses (t : Token) : Move → Prop
  | .reject fault false => fault = .unexpected (some (.symbol .rightParen)) t
  | .reject fault true => ∀ kind, fault ≠ .unexpected (some kind) t
  | _ => True

namespace State

theorem refuses_deepen (limit : Nat) (s : State) (t : Token) : Refuses t (deepen limit s) := by
  unfold deepen
  split
  · exact nofun
  · trivial

theorem refuses_readOperand (limit : Nat) (s : State) (t : Token) :
    Refuses t (s.readOperand limit t) := by
  unfold readOperand
  split
  · exact refuses_deepen ..
  · split
    case h_7 => exact refuses_deepen ..
    case h_8 => exact nofun
    case h_9 => exact nofun
    all_goals trivial

theorem refuses_refuseUnclosed (t : Token) : Refuses t (refuseUnclosed t) := by
  unfold refuseUnclosed
  split
  · exact nofun
  · rfl

theorem refuses_afterExpression (s : State) (value : Tree) (t : Token) :
    Refuses t (s.afterExpression value t) := by
  unfold afterExpression afterStatement
  split
  · trivial
  · split
    · split
      · trivial
      · exact nofun
    · split
      · trivial
      · split
        · trivial
        · split <;> exact nofun

theorem refuses_afterOperand (s : State) (operand : Tree) (t : Token) :
    Refuses t (s.afterOperand operand t) := by
  unfold afterOperand
  split
  · split <;> trivial
  · split
    · exact refuses_afterExpression ..
    · split
      · trivial
      · exact refuses_refuseUnclosed t
    · split
      · trivial
      · split
        · trivial
        · exact refuses_refuseUnclosed t

theorem refuses_step (limit : Nat) (s : State) (t : Token) : Refuses t (s.step limit t) := by
  unfold step
  split
  · split
    · exact nofun
    · exact refuses_readOperand ..
  · exact refuses_readOperand ..
  · split
    · split
      · trivial
      · exact refuses_readOperand ..
    · exact refuses_readOperand ..
  · split
    · exact refuses_deepen ..
    · exact refuses_afterOperand ..
  · exact refuses_afterOperand ..

end State

/-- What a parse that fails has taken, and what it leaves. -/
inductive Stops : Fault → (taken left : List Token) → Prop where
  | atEnd {ts : List Token} : Stops .endOfInput ts []
  | unclosed {t : Token} {ts rest : List Token} :
      t.kind.isFlaw = false → Stops (.unexpected (some (.symbol .rightParen)) t) ts (t :: rest)
  | refused {fault : Fault} {t : Token} {ts rest : List Token} :
      fault.Blames t → (∀ kind, fault ≠ .unexpected (some kind) t) → Stops fault (ts ++ [t]) rest
  | tooDeep {t : Token} {ts rest : List Token} : Stops .tooDeep (ts ++ [t]) rest

theorem State.stops_of_run {limit : Nat} {s : State} {ts : List Token} {fault : Fault}
    (h : (s.run limit ts).1 = .error fault) :
    Stops fault (s.consumed limit ts) (s.run limit ts).2 := by
  obtain ⟨front, back, last, rfl, hshifts, hends⟩ := exists_shifts_ends limit s ts
  rw [hshifts.consumed]
  generalize s.run limit (front ++ back) = result at h hends
  cases hends with
  | finish =>
      obtain rfl := finish_eq_error h
      exact .atEnd
  | accept => cases h
  | @reject t rest fault taken hstep =>
      obtain rfl := Except.error.inj h
      have hrefuses := refuses_step limit last t
      have houtcome := step_outcome limit last t
      rw [hstep] at hrefuses houtcome
      rw [State.consumed, hstep]
      cases taken with
      | false =>
          change fault = _ at hrefuses
          subst hrefuses
          cases houtcome with
          | unexpected hflaw => exact .unclosed hflaw
      | true =>
          rcases step_eq_reject hstep with rfl | hblames
          · exact .tooDeep
          · exact .refused hblames hrefuses

def Answer.fault? : Answer → Option Fault
  | .taken (.error fault) | .accepted (.error fault) | .parsed (.error fault) => some fault
  | _ => none

/-- The token that an answer returns or reports as flawed. -/
def Answer.delivered : Answer → List Token
  | .taken (.ok t) | .taken (.error (.flawed t)) => [t]
  | .accepted (.ok (some t)) | .accepted (.error (.flawed t)) => [t]
  | _ => []

/-- What a step comes to where no token is left. -/
def Step.answerAtEnd : Step → Answer
  | .peek => .peeked none
  | .check _ => .checked false
  | .advance | .expect _ => .taken (.error .endOfInput)
  | .accept _ => .accepted (.ok none)
  | .parse _ | .parseCall _ => .parsed (.error .endOfInput)

/-- Whether a step takes the next token if it is a flaw of the given kind. -/
def Step.takesFlaw (kind : Kind) : Step → Bool
  | .peek | .check _ => false
  | .accept kinds => kinds.contains kind
  | _ => true

theorem perform_atEnd {p : Parser} (h : p.tokens = []) (limits : Limits) (step : Step) :
    p.perform limits step = (step.answerAtEnd, p) := by
  obtain ⟨source, filename, tokens⟩ := p
  obtain rfl : tokens = [] := h
  cases step with
  | parse goal => cases goal <;> rfl
  | _ => rfl

/-- Where an operand is due, a flaw is taken and reported. -/
theorem State.step_flaw (limit : Nat) {s : State} {t : Token} (hawaits : s.Awaits)
    (h : t.kind.isFlaw = true) : s.step limit t = .reject (.flawed t) true := by
  obtain ⟨kind, payload, span, line, column⟩ := t
  cases kind with
  | flaw f =>
      have hread : s.readOperand limit ⟨.flaw f, payload, span, line, column⟩ =
          .reject (.flawed ⟨.flaw f, payload, span, line, column⟩) true := rfl
      unfold step
      cases hphase : s.phase with
      | start => exact hread
      | operand => exact hread
      | argument =>
          dsimp only
          split <;> exact hread
      | named name => simp [Awaits, hphase] at hawaits
      | complete tree => simp [Awaits, hphase] at hawaits
  | _ => cases h

theorem perform_flaw {p : Parser} {t : Token} {rest : List Token} (h : p.tokens = t :: rest)
    (hflaw : t.kind.isFlaw = true) (limits : Limits) {step : Step}
    (hstep : step.takesFlaw t.kind = true) :
    (p.perform limits step).1.fault? = some (.flawed t) ∧
      (p.perform limits step).2.tokens = rest := by
  have hadvance : p.advance = (.error (.flawed t), { p with tokens := rest }) := by
    rw [advance, h]
    simp [hflaw]
  cases step with
  | peek | check => cases hstep
  | advance =>
      rw [perform, hadvance]
      exact ⟨rfl, rfl⟩
  | accept kinds =>
      have hcheck : p.check kinds = true := by rwa [check, peek?, h]
      rw [perform, accept?, hcheck, hadvance]
      exact ⟨rfl, rfl⟩
  | expect kind =>
      have hexpect : p.expect kind = p.advance := by
        rw [expect, h]
        simp [hflaw]
      rw [perform, hexpect, hadvance]
      exact ⟨rfl, rfl⟩
  | parse goal =>
      have hreject : (State.initial goal).step limits.nesting t = .reject (.flawed t) true :=
        State.step_flaw _ (by cases goal <;> trivial) hflaw
      rw [perform, parse, h, State.run, hreject]
      exact ⟨rfl, rfl⟩
  | parseCall name =>
      have hreject : (State.inCall name).step limits.nesting t = .reject (.flawed t) true :=
        State.step_flaw _ trivial hflaw
      rw [perform, parseCall, h, State.run, hreject]
      exact ⟨rfl, rfl⟩

/-- A token that is taken is returned or reported. -/
theorem delivered_advance (p : Parser) :
    (Answer.taken p.advance.1).delivered ++ p.advance.2.tokens = p.tokens := by
  unfold advance
  cases htokens : p.tokens with
  | nil => exact htokens
  | cons t rest =>
      dsimp only
      cases t.kind.isFlaw <;> rfl

theorem delivered_accepted (taken : Except Fault Token) :
    (Answer.accepted (taken.map some)).delivered = (Answer.taken taken).delivered := by
  cases taken with
  | ok t => rfl
  | error fault => cases fault <;> rfl

theorem delivered_accept? (p : Parser) (kinds : List Kind) :
    (Answer.accepted (p.accept? kinds).1).delivered ++ (p.accept? kinds).2.tokens = p.tokens := by
  unfold accept?
  split
  · dsimp only
    rw [delivered_accepted]
    exact delivered_advance p
  · rfl

theorem delivered_expect (p : Parser) (kind : Kind) :
    (Answer.taken (p.expect kind).1).delivered ++ (p.expect kind).2.tokens = p.tokens := by
  unfold expect
  cases htokens : p.tokens with
  | nil => exact htokens
  | cons t rest =>
      dsimp only
      split
      · exact (delivered_advance p).trans htokens
      · exact htokens

end Glass.Parser

namespace Glass.Reader

open Glass.Parser Grammar

/-- The end is found only where no token is left to be pulled. -/
def Sound (r : Reader) : Prop := r.pulled = some none → r.tokens = []

/-- The parser that has all the tokens ahead at hand. -/
def view (r : Reader) : Parser := { r.toParser with tokens := r.ahead }

/-- The reader after it has looked at the next token. -/
def looked (r : Reader) : Reader :=
  { r with tokens := r.ahead.tail, pulled := some r.ahead.head? }

/-- A step of a reader does what the step of a parser does. -/
structure Simulates {α : Type} (done : α × Reader) (expected : α × Parser) : Prop where
  answer : done.1 = expected.1
  view_eq : done.2.view = expected.2
  sound : done.2.Sound

theorem Simulates.map {α β : Type} {done : α × Reader} {expected : α × Parser}
    (h : Simulates done expected) (f : α → β) :
    Simulates (f done.1, done.2) (f expected.1, expected.2) :=
  ⟨congrArg f h.answer, h.view_eq, h.sound⟩

section
variable {r : Reader}

theorem peek_eq (h : r.Sound) : r.peek = (r.ahead.head?, r.looked) := by
  obtain ⟨⟨source, filename, tokens⟩, pulled⟩ := r
  match pulled with
  | none => rfl
  | some (some t) => rfl
  | some none =>
      obtain rfl : tokens = [] := h rfl
      rfl

theorem ahead_looked (r : Reader) : r.looked.ahead = r.ahead := by
  change r.ahead.head?.toList ++ r.ahead.tail = r.ahead
  cases r.ahead <;> rfl

theorem view_looked (r : Reader) : r.looked.view = r.view := by
  unfold view
  rw [ahead_looked]
  rfl

theorem sound_looked (r : Reader) : r.looked.Sound := by
  intro hend
  have hempty : r.ahead = [] := List.head?_eq_none_iff.mp (Option.some.inj hend)
  exact congrArg List.tail hempty

theorem sound_take (r : Reader) : r.take.Sound := nofun

theorem view_take_looked {t : Token} {rest : List Token} (h : r.ahead = t :: rest) :
    r.looked.take.view = { r.view with tokens := rest } := by
  unfold looked take view
  rw [h]
  rfl

theorem peek_simulates (h : r.Sound) : Simulates r.peek (r.view.peek?, r.view) := by
  rw [peek_eq h]
  exact ⟨rfl, view_looked r, sound_looked r⟩

theorem check_view (r : Reader) (kinds : List Kind) :
    r.view.check kinds = r.ahead.head?.any fun t => kinds.contains t.kind := by
  have hpeek : r.view.peek? = r.ahead.head? := rfl
  rw [Parser.check, hpeek]
  cases r.ahead.head? <;> rfl

theorem check_simulates (h : r.Sound) (kinds : List Kind) :
    Simulates (r.check kinds) (r.view.check kinds, r.view) := by
  rw [check, peek_eq h, check_view]
  exact ⟨rfl, view_looked r, sound_looked r⟩

theorem advance_simulates (h : r.Sound) : Simulates r.advance r.view.advance := by
  have htokens : r.view.tokens = r.ahead := rfl
  rw [advance, peek_eq h, Parser.advance, htokens]
  cases hahead : r.ahead with
  | nil => exact ⟨rfl, view_looked r, sound_looked r⟩
  | cons t rest => exact ⟨rfl, view_take_looked hahead, sound_take _⟩

theorem accept?_simulates (h : r.Sound) (kinds : List Kind) :
    Simulates (r.accept? kinds) (r.view.accept? kinds) := by
  obtain ⟨hfits, hview, hsound⟩ := check_simulates h kinds
  have hnext := advance_simulates hsound
  rw [hview] at hnext
  rw [accept?, Parser.accept?]
  cases hcheck : r.check kinds with
  | mk fits next =>
      rw [hcheck] at hfits hview hsound hnext
      simp only at hfits
      rw [← hfits]
      cases fits with
      | false => exact ⟨rfl, hview, hsound⟩
      | true => exact ⟨congrArg (Except.map some) hnext.answer, hnext.view_eq, hnext.sound⟩

theorem expect_simulates (h : r.Sound) (kind : Kind) :
    Simulates (r.expect kind) (r.view.expect kind) := by
  have htokens : r.view.tokens = r.ahead := rfl
  rw [expect, peek_eq h, Parser.expect, htokens]
  cases hahead : r.ahead with
  | nil => exact ⟨rfl, view_looked r, sound_looked r⟩
  | cons t rest =>
      simp only [List.head?_cons]
      split
      · rw [← view_looked]
        exact advance_simulates (sound_looked r)
      · exact ⟨rfl, view_looked r, sound_looked r⟩

/-- The machine gets the same tokens from a reader as from the row of those ahead. -/
theorem run_simulates (limit : Nat) {s : State} (hbare : s.Bare) (h : r.Sound) :
    Simulates (r.run limit s)
      ((s.run limit r.ahead).1, { r.view with tokens := (s.run limit r.ahead).2 }) := by
  fun_induction Reader.run limit s r with
  | case1 s r tree hreached =>
      rw [State.run_of_reached hreached hbare]
      exact ⟨rfl, rfl, h⟩
  | case2 s r _ next hpeek =>
      obtain ⟨hhead, rfl⟩ := Prod.mk.inj ((peek_eq h).symm.trans hpeek)
      have hahead : r.ahead = [] := List.head?_eq_none_iff.mp hhead
      refine ⟨by rw [hahead]; rfl, ?_, sound_looked r⟩
      rw [view_looked, view, hahead]
      rfl
  | case3 s r _ t next hpeek s' hstep ih =>
      have hahead := ahead_of_peek hpeek
      obtain ⟨_, rfl⟩ := Prod.mk.inj ((peek_eq h).symm.trans hpeek)
      have hbare' : s'.Bare := (State.step_eq_shift_iff.mp hstep).1.bare hbare
      rw [hahead, State.run, hstep]
      exact ih hbare' (sound_take _)
  | case4 s r _ t next hpeek tree hstep =>
      have hahead := ahead_of_peek hpeek
      obtain ⟨_, rfl⟩ := Prod.mk.inj ((peek_eq h).symm.trans hpeek)
      rw [hahead, State.run, hstep, ← hahead]
      exact ⟨rfl, view_looked r, sound_looked r⟩
  | case5 s r _ t next hpeek fault hstep =>
      have hahead := ahead_of_peek hpeek
      obtain ⟨_, rfl⟩ := Prod.mk.inj ((peek_eq h).symm.trans hpeek)
      rw [hahead, State.run, hstep]
      exact ⟨rfl, view_take_looked hahead, sound_take _⟩
  | case6 s r _ t next hpeek fault hstep =>
      have hahead := ahead_of_peek hpeek
      obtain ⟨_, rfl⟩ := Prod.mk.inj ((peek_eq h).symm.trans hpeek)
      rw [hahead, State.run, hstep, ← hahead]
      exact ⟨rfl, view_looked r, sound_looked r⟩

/-- A reader answers as the parser does that has all the tokens ahead at hand, and leaves the same
tokens. -/
theorem perform_simulates (h : r.Sound) (limits : Limits) (step : Step) :
    Simulates (r.perform limits step) (r.view.perform limits step) := by
  cases step with
  | peek => exact (peek_simulates h).map Answer.peeked
  | check kinds => exact (check_simulates h kinds).map Answer.checked
  | advance => exact (advance_simulates h).map Answer.taken
  | accept kinds => exact (accept?_simulates h kinds).map Answer.accepted
  | expect kind => exact (expect_simulates h kind).map Answer.taken
  | parse goal =>
      exact (run_simulates limits.nesting (State.bare_initial goal) h).map Answer.parsed
  | parseCall name =>
      exact (run_simulates limits.nesting (State.bare_inCall name) h).map Answer.parsed

end

/-- The reader after a row of steps. -/
def performAll (r : Reader) (limits : Limits) (steps : List Step) : Reader :=
  steps.foldl (fun r step => (r.perform limits step).2) r

/-- The tokens that a step takes: the one that is returned or reported as flawed, or those that the
parsing machine takes. -/
def dequeued (r : Reader) (limits : Limits) : Step → List Token
  | .parse goal => (State.initial goal).consumed limits.nesting r.ahead
  | .parseCall name => (State.inCall name).consumed limits.nesting r.ahead
  | step => (r.perform limits step).1.delivered

/-- The tokens that a row of steps takes. -/
def dequeuedAll (r : Reader) (limits : Limits) : (steps : List Step) → List Token
  | [] => []
  | step :: steps => r.dequeued limits step ++ (r.perform limits step).2.dequeuedAll limits steps

section
variable {r : Reader}

theorem ahead_perform (h : r.Sound) (limits : Limits) (step : Step) :
    (r.perform limits step).2.ahead = (r.view.perform limits step).2.tokens :=
  congrArg Parser.tokens (perform_simulates h limits step).view_eq

/-- Whatever a step answers, it takes tokens off the front and leaves the others. -/
theorem dequeued_append_ahead (h : r.Sound) (limits : Limits) (step : Step) :
    r.dequeued limits step ++ (r.perform limits step).2.ahead = r.ahead := by
  have hanswer := (perform_simulates h limits step).answer
  rw [ahead_perform h]
  cases step with
  | parse goal => exact State.consumed_append_run limits.nesting (.initial goal) r.ahead
  | parseCall name => exact State.consumed_append_run limits.nesting (.inCall name) r.ahead
  | peek => rfl
  | check kinds => rfl
  | advance => exact (congrArg (·.delivered ++ _) hanswer).trans (delivered_advance r.view)
  | accept kinds =>
      exact (congrArg (·.delivered ++ _) hanswer).trans (delivered_accept? r.view kinds)
  | expect kind =>
      exact (congrArg (·.delivered ++ _) hanswer).trans (delivered_expect r.view kind)

theorem sound_performAll (h : r.Sound) (limits : Limits) (steps : List Step) :
    (r.performAll limits steps).Sound := by
  induction steps generalizing r with
  | nil => exact h
  | cons step steps ih => exact ih (perform_simulates h limits step).sound

theorem dequeuedAll_append_ahead (h : r.Sound) (limits : Limits) (steps : List Step) :
    r.dequeuedAll limits steps ++ (r.performAll limits steps).ahead = r.ahead := by
  induction steps generalizing r with
  | nil => rfl
  | cons step steps ih =>
      rw [dequeuedAll, List.append_assoc, ← dequeued_append_ahead h limits step]
      exact congrArg _ (ih (perform_simulates h limits step).sound)

theorem performAll_atEnd (h : r.Sound) (hend : r.ahead = []) (limits : Limits)
    (steps : List Step) : (r.performAll limits steps).ahead = [] := by
  have hconserved := dequeuedAll_append_ahead h limits steps
  rw [hend] at hconserved
  exact (List.append_eq_nil_iff.mp hconserved).2

end

/-- What the steps of a reader do to the tokens ahead. -/
structure Conserves (limits : Limits) (r : Reader) : Prop where
  /-- Looking takes nothing. -/
  peek : (r.perform limits .peek).1 = .peeked r.ahead.head? ∧
    (r.perform limits .peek).2.ahead = r.ahead
  check (kinds : List Kind) : (r.perform limits (.check kinds)).2.ahead = r.ahead
  /-- A token of another kind than those asked for is left. -/
  refused (kinds : List Kind) : (∀ t ∈ r.ahead.head?, t.kind ∉ kinds) →
    (r.perform limits (.accept kinds)).1 = .accepted (.ok none) ∧
      (r.perform limits (.accept kinds)).2.ahead = r.ahead
  unexpected (kind : Kind) (t : Token) (rest : List Token) :
    r.ahead = t :: rest → t.kind ≠ kind → t.kind.isFlaw = false →
    (r.perform limits (.expect kind)).1 = .taken (.error (.unexpected (some kind) t)) ∧
      (r.perform limits (.expect kind)).2.ahead = r.ahead
  /-- A flaw is taken before it is reported. -/
  flawed (t : Token) (rest : List Token) : r.ahead = t :: rest → t.kind.isFlaw = true →
    ∀ step : Step, step.takesFlaw t.kind = true →
      (r.perform limits step).1.fault? = some (.flawed t) ∧
        (r.perform limits step).2.ahead = rest
  /-- The end is noticed by every step, also after others. -/
  atEnd : r.ahead = [] → ∀ (before : List Step) (step : Step),
    ((r.performAll limits before).perform limits step).1 = step.answerAtEnd
  /-- A tree takes the tokens that derive it. -/
  parsed (goal : Goal) (tree : Tree) : goal.level ≤ atomLevel →
    (r.perform limits (.parse goal)).1 = .parsed (.ok tree) →
    Derives goal (r.dequeued limits (.parse goal)) tree
  called (name opening : Token) (tree : Tree) : name.kind = .identifier →
    opening.kind = .symbol .leftParen →
    (r.perform limits (.parseCall name)).1 = .parsed (.ok tree) →
    Expression atomLevel (name :: opening :: r.dequeued limits (.parseCall name)) tree
  /-- A parse that fails takes the tokens up to the fault. -/
  stopped (step : Step) (fault : Fault) : (r.perform limits step).1 = .parsed (.error fault) →
    Stops fault (r.dequeued limits step) (r.perform limits step).2.ahead

theorem conserves_of_sound {r : Reader} (h : r.Sound) (limits : Limits) : r.Conserves limits where
  peek := ⟨(perform_simulates h limits .peek).answer, ahead_perform h limits .peek⟩
  check kinds := ahead_perform h limits (.check kinds)
  refused kinds hnone := by
    have hcheck : r.view.check kinds = false := by
      rw [check_view]
      cases hhead : r.ahead.head? with
      | none => rfl
      | some t => simpa using hnone t hhead
    have hperform : r.view.perform limits (.accept kinds) = (.accepted (.ok none), r.view) := by
      rw [Parser.perform, Parser.accept?, hcheck]
      rfl
    rw [(perform_simulates h limits (.accept kinds)).answer, ahead_perform h, hperform]
    exact ⟨rfl, rfl⟩
  unexpected kind t rest hahead hkind hflaw := by
    have hperform : r.view.perform limits (.expect kind) =
        (.taken (.error (.unexpected (some kind) t)), r.view) := by
      have htokens : r.view.tokens = t :: rest := hahead
      rw [Parser.perform, Parser.expect, htokens]
      simp [hkind, hflaw]
    rw [(perform_simulates h limits (.expect kind)).answer, ahead_perform h, hperform]
    exact ⟨rfl, rfl⟩
  flawed t rest hahead hflaw step hstep := by
    rw [(perform_simulates h limits step).answer, ahead_perform h]
    exact perform_flaw (p := r.view) hahead hflaw limits hstep
  atEnd hend before step := by
    have hsound := sound_performAll h limits before
    have htokens := performAll_atEnd h hend limits before
    rw [(perform_simulates hsound limits step).answer, perform_atEnd htokens]
  parsed goal tree hlevel hparse := by
    rw [(perform_simulates h limits (.parse goal)).answer] at hparse
    have hderives := (State.reads_initial hlevel).consumed (Answer.parsed.inj hparse)
    rwa [State.goal_initial] at hderives
  called name opening tree hname hopening hparse := by
    rw [(perform_simulates h limits (.parseCall name)).answer] at hparse
    exact (State.reads_inCall hname hopening).consumed (Answer.parsed.inj hparse)
  stopped step fault hparse := by
    rw [(perform_simulates h limits step).answer] at hparse
    rw [ahead_perform h]
    cases step with
    | parse goal => exact State.stops_of_run (Answer.parsed.inj hparse)
    | parseCall name => exact State.stops_of_run (Answer.parsed.inj hparse)
    | _ => cases hparse

/-- Reading conserves tokens. After any row of steps, failed ones among them, the tokens taken so far,
the one that was pulled ahead and those still to be pulled are the tokens given, in their order, and
the end was found only if none is left. From there on every step takes what `Conserves` says: looking
takes nothing, a token that is not asked for is left, a flaw is taken before it is reported, the end
is noticed now and later, and a parse takes the tokens of its tree or those up to its fault. -/
theorem reader_conserves_tokens (p : Parser) (limits : Limits) (steps : List Step) :
    let start : Reader := { toParser := p }
    let r := start.performAll limits steps
    start.dequeuedAll limits steps ++ (r.lookahead?.toList ++ r.tokens) = p.tokens ∧
      (r.pulled = some none → r.tokens = []) ∧ r.Conserves limits := by
  intro start r
  have hstart : start.Sound := nofun
  have hsound : r.Sound := sound_performAll hstart limits steps
  exact ⟨dequeuedAll_append_ahead hstart limits steps, hsound, conserves_of_sound hsound limits⟩

/-- Of `a @`, a number that is expected takes nothing and the name is taken; a parse then takes the
flaw and reports it, and finds the end when it is tried again. -/
theorem reader_conserves_tokens_flaw :
    let start : Reader := { toParser := .ofText "a @" none }
    let steps : List Step := [.expect .number, .accept [.identifier]]
    let r := start.performAll {} steps
    start.dequeuedAll {} steps ++ (r.lookahead?.toList ++ r.tokens) = tokenize "a @" ∧
      ∃ t, (tokenize "a @")[1]? = some t ∧
        (r.perform {} (.parse .program)).1.fault? = some (.flawed t) ∧
        ((r.performAll {} [.parse .program]).perform {} (.parse .program)).1 =
          .parsed (.error .endOfInput) := by
  intro start steps r
  obtain ⟨hconserved, _, hr⟩ := reader_conserves_tokens (.ofText "a @" none) {} steps
  obtain ⟨hfault, hleft⟩ := hr.flawed _ [] (by rfl) (by rfl) (.parse .program) rfl
  refine ⟨hconserved, _, rfl, hfault, ?_⟩
  have hnext := (reader_conserves_tokens (.ofText "a @" none) {} (steps ++ [.parse .program])).2.2
  exact hnext.atEnd hleft [] (.parse .program)

end Glass.Reader
