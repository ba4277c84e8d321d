import Glass.Value

/-!
Scopes. Names are looked up in layers, the innermost first. A `Store` keeps frames that can share an
outer frame: a frame is built on an earlier one or on none, takes over its source and file name if it
is given none of its own, and looks names up through it from then on.
-/

namespace Glass

structure Scope where
  layers : List (Entries Value) := []
  source : Option String := none
  filename : Option String := none

def Scope.find? (scope : Scope) (name : String) : Option Value :=
  scope.layers.findSome? fun layer => Entries.get? layer name

structure Frame where
  parent : Option Nat := none
  name : String := "global"
  bindings : Entries Value := []
  source : Option String := none
  filename : Option String := none

/-- Take what is given and keep the rest. -/
def Frame.update (f : Frame) (source filename : Option String) (bindings : Entries Value) : Frame :=
  { f with
    source := source.or f.source
    filename := filename.or f.filename
    bindings := Entries.merge f.bindings bindings }

/-- Frames, the newest first. A frame is known by how many were there before it, and its parent is
one of those. -/
structure Store where
  frames : List Frame := []

namespace Store

def get? (s : Store) (index : Nat) : Option Frame := s.frames.reverse[index]?

/-- Add a frame. What it is not given it takes over from its parent. -/
def push (s : Store) (f : Frame) : Store :=
  let parent := f.parent.bind s.get?
  let built :=
    { f with
      source := f.source.or (parent.bind Frame.source)
      filename := f.filename.or (parent.bind Frame.filename) }
  ⟨built :: s.frames⟩

/-- The bindings seen from a frame, its own first and its parent's next. -/
def layers : (frames : List Frame) → (index : Nat) → List (Entries Value)
  | [], _ => []
  | f :: older, index =>
      if index = older.length then
        f.bindings ::
          match f.parent with
          | none => []
          | some parent => layers older parent
      else layers older index

def scope (s : Store) (index : Nat) : Scope where
  layers := layers s.frames index
  source := (s.get? index).bind Frame.source
  filename := (s.get? index).bind Frame.filename

def modify (s : Store) (index : Nat) (f : Frame → Frame) : Store :=
  ⟨(s.frames.reverse.modify index f).reverse⟩

end Store

end Glass
