import Glass.Parser

/-!
A reader is a parser at work on tokens that it has to pull, one after another. It looks at a token
before it takes it, so that there is at most one that it has pulled and not taken, and it pulls none
that it need not look at. What it answers is what the parser answers that has all the tokens at hand.
-/

namespace Glass

/-- The parser's tokens are those still to be pulled. -/
structure Reader extends Parser where
  /-- What was pulled and is not taken: nothing, a token, or the end of the tokens. -/
  pulled : Option (Option Token) := none

/-- The tree that a goal is reached with already, so that the next token need not be looked at: no
operator can follow a sign's operand or an atom. -/
def Parser.State.reached? (s : State) : Option Tree :=
  match s.goal, s.outer, s.phase with
  | .expression level, [], .complete operand =>
      if unaryLevel ≤ level then some (settle 0 s.inner.operations operand).2 else none
  | _, _, _ => none

namespace Reader

open Glass.Parser

/-- The token that was pulled and is not taken. -/
def lookahead? (r : Reader) : Option Token := r.pulled.join

/-- The tokens that are not taken yet. -/
def ahead (r : Reader) : List Token := r.lookahead?.toList ++ r.tokens

/-- Look at the next token. It is pulled unless that was done before. -/
def peek (r : Reader) : Option Token × Reader :=
  match r.pulled with
  | some next => (next, r)
  | none =>
      let next := r.tokens.head?
      (next, { r with tokens := r.tokens.tail, pulled := some next })

/-- Take what was pulled. -/
def take (r : Reader) : Reader := { r with pulled := none }

theorem ahead_of_peek {r next : Reader} {t : Token} (h : r.peek = (some t, next)) :
    r.ahead = t :: next.take.ahead := by
  unfold peek at h
  split at h
  · rename_i hpulled
    obtain ⟨rfl, rfl⟩ := Prod.mk.inj h
    rw [ahead, lookahead?, hpulled]
    rfl
  · rename_i hpulled
    obtain ⟨hhead, rfl⟩ := Prod.mk.inj h
    obtain ⟨rest, hrest⟩ := List.head?_eq_some_iff.mp hhead
    rw [ahead, lookahead?, hpulled, hrest]
    rfl

/-- Whether the next token is of one of the given kinds. -/
def check (r : Reader) (kinds : List Kind) : Bool × Reader :=
  let (token, next) := r.peek
  (token.any fun t => kinds.contains t.kind, next)

/-- Take the next token. A flaw is taken too, and then reported. -/
def advance (r : Reader) : Except Fault Token × Reader :=
  match r.peek with
  | (none, next) => (.error .endOfInput, next)
  | (some t, next) => (if t.kind.isFlaw then .error (.flawed t) else .ok t, next.take)

/-- Take the next token if it is of one of the given kinds. -/
def accept? (r : Reader) (kinds : List Kind) : Except Fault (Option Token) × Reader :=
  match r.check kinds with
  | (true, next) =>
      let (taken, rest) := next.advance
      (taken.map some, rest)
  | (false, next) => (.ok none, next)

/-- Take the next token, which must be of the given kind. A token of another kind is left, unless it
is a flaw. -/
def expect (r : Reader) (kind : Kind) : Except Fault Token × Reader :=
  match r.peek with
  | (none, next) => (.error .endOfInput, next)
  | (some t, next) =>
      if t.kind = kind || t.kind.isFlaw then next.advance
      else (.error (.unexpected (some kind) t), next)

/-- Run the parsing machine. -/
def run (limit : Nat) (s : State) (r : Reader) : Except Fault Tree × Reader :=
  match s.reached? with
  | some tree => (.ok tree, r)
  | none =>
      match _ : r.peek with
      | (none, next) => (s.finish, next)
      | (some t, next) =>
          match s.step limit t with
          | .shift s => run limit s next.take
          | .accept tree => (.ok tree, next)
          | .reject fault true => (.error fault, next.take)
          | .reject fault false => (.error fault, next)
termination_by r.ahead.length
decreasing_by
  rw [ahead_of_peek ‹r.peek = _›]
  exact Nat.lt_succ_self _

/-- Do one step; the reader that is left is the one for the next step, even if this one failed. -/
def perform (r : Reader) (limits : Limits) : Step → Answer × Reader
  | .peek => let (token, next) := r.peek; (.peeked token, next)
  | .check kinds => let (fits, next) := r.check kinds; (.checked fits, next)
  | .advance => let (token, next) := r.advance; (.taken token, next)
  | .accept kinds => let (token, next) := r.accept? kinds; (.accepted token, next)
  | .expect kind => let (token, next) := r.expect kind; (.taken token, next)
  | .parse goal => let (tree, next) := r.run limits.nesting (.initial goal); (.parsed tree, next)
  | .parseCall name => let (tree, next) := r.run limits.nesting (.inCall name); (.parsed tree, next)

end Reader

end Glass
