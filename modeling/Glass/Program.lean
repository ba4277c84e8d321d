import Glass.Evaluation
import Glass.Parser

/-!
Running programs: a text is parsed, and its tree evaluated. A program is run on its own, or in a frame
of a store, which keeps what the frame was given even if the program then fails.
-/

namespace Glass

/-- Evaluate a tree on its own. -/
def evaluate (t : Tree) (source filename : Option String) (bindings : Entries Value)
    (limits : Limits) : Except Failure Operand :=
  t.eval { layers := [bindings], source, filename } limits.evaluation

/-- Running reports too deep a nesting as a diagnostic, which has no place. -/
def Failure.reported : Failure → Failure
  | .tooDeep => .ofCause (.internal "maximum nesting depth exceeded")
  | failure => failure

/-- The value of a program. -/
def run (source filename : String) (bindings : Entries Value) (limits : Limits) :
    Except Failure Value :=
  let result := do
    let tree ← parseProgram source (some filename) limits
    let result ← evaluate tree (some source) (some filename) bindings limits
    result.toValue
  result.mapError Failure.reported

/-- Ask one layer after the other for a name, no more than `room` of them. -/
def lookupWithin (name : String) : (room : Nat) → List (Entries Value) → Except Failure Value
  | _, [] => .error (.ofCause (.undefinedName name))
  | 0, _ :: _ => .error .tooDeep
  | room + 1, layer :: outer =>
      match Entries.get? layer name with
      | some value => .ok value
      | none => lookupWithin name room outer

/-- The value of a name seen from a frame. -/
def Store.lookup (s : Store) (index : Nat) (name : String) (limits : Limits) :
    Except Failure Value :=
  lookupWithin name limits.lookup (s.scope index).layers

/-- Run a program in a frame. The frame first takes what it is given, unless the program has no
tree. -/
def Store.run (s : Store) (index : Nat) (text : String) (source filename : Option String)
    (bindings : Entries Value) (limits : Limits) : Except Failure Value × Store :=
  match parseProgram text filename limits with
  | .error failure => (.error failure, s)
  | .ok tree =>
      let updated := s.modify index fun f => f.update source filename bindings
      (tree.eval (updated.scope index) limits.evaluation >>= Operand.toValue, updated)

/-- What can be asked of a store of frames. -/
inductive Store.Step where
  | lookup (index : Nat) (name : String)
  | run (index : Nat) (text : String) (source filename : Option String) (bindings : Entries Value)

/-- Do one step; the store that is left is the one for the next step, even if this one failed. -/
def Store.perform (s : Store) (limits : Limits) : Store.Step → Except Failure Value × Store
  | .lookup index name => (s.lookup index name limits, s)
  | .run index text source filename bindings => s.run index text source filename bindings limits

end Glass
