/-!
A directory given by its entries. Paths are relative to it: empty parts and single dots are dropped,
and a double dot goes up from a directory that must be there. Nothing lies outside.
-/

namespace Glass.CommandLine

/-- Path names with the bytes of a file, or none for a directory. Of two entries for one path the
later counts. -/
abbrev Directory := List (String × Option (List UInt8))

/-- The parts of a path that count. -/
def pathParts (path : String) : List String :=
  (path.splitOn "/").filter fun part => !part.isEmpty && part != "."

namespace Directory

/-- Whether a path leads to a directory, one that is listed or one that holds something listed. -/
def holds (entries : Directory) (parts : List String) : Bool :=
  entries.any fun (name, content) =>
    let listed := pathParts name
    parts.isPrefixOf listed && (parts.length < listed.length || content.isNone)

def file? (entries : Directory) (parts : List String) : Option (List UInt8) :=
  (entries.reverse.find? fun (name, _) => pathParts name == parts).bind Prod.snd

/-- Follow a path from the directory `here`. -/
def walk? (entries : Directory) (here : List String) : (parts : List String) → Option (List UInt8)
  | [] => none
  | ".." :: rest => if here.isEmpty then none else walk? entries here.dropLast rest
  | name :: rest =>
      let there := here ++ [name]
      if entries.holds there then walk? entries there rest
      else if rest.isEmpty then entries.file? there
      else none

/-- The bytes of the file that a path leads to. -/
def read? (entries : Directory) (path : String) : Option (List UInt8) :=
  if path.startsWith "/" then none else walk? entries [] (pathParts path)

end Directory

end Glass.CommandLine
