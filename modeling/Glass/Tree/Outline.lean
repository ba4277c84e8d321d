import Glass.Text.Blank
import Glass.Tree

/-!
Outlines of trees: a line for each node, two blanks of indent for each level. A child that is no node
has a line of its own too, but the only child of a node stands behind the label.
-/

namespace Glass.Tree

/-- A child that is no node, as outlines show it. -/
def leafText? : Tree → Option String
  | .node .. => none
  | .token _ word _ => some word
  | .number x => some (NumberStyle.logged.text x)
  | .text word => some word
  | .flag true => some "True"
  | .flag false => some "False"

def indent (level : Nat) (text : String) : String :=
  String.ofList (List.replicate (2 * level) ' ') ++ text

mutual

/-- The lines of a tree at the given level. -/
def outlineLines (level : Nat) : Tree → List String
  | .node label [only] _ =>
      match only.leafText? with
      | some word => [indent level (label.name ++ "\t" ++ word)]
      | none => indent level label.name :: outlineLines (level + 1) only
  | .node label children _ => indent level label.name :: outlineAll (level + 1) children
  | .token _ word _ => [indent level word]
  | .number x => [indent level (NumberStyle.logged.text x)]
  | .text word => [indent level word]
  | .flag b => [indent level (if b then "True" else "False")]

/-- The lines of a row of trees at the given level. -/
def outlineAll (level : Nat) : List Tree → List String
  | [] => []
  | t :: rest => outlineLines level t ++ outlineAll level rest

end

/-- The outline, without blanks at its end. -/
def outline (t : Tree) : String :=
  String.ofList (trimEnd isBlank ("\n".intercalate (outlineLines 0 t)).toList)

end Glass.Tree
