import Glass.CommandLine.Session

/-!
The program `glass`: hands the command line, standard input and files to a session, and writes what the
session leaves behind.
-/

namespace Glass.CommandLine

/-- All bytes of a stream. -/
partial def readAll (stream : IO.FS.Stream) (read : ByteArray) : IO ByteArray := do
  let chunk ← stream.read 65536
  if chunk.isEmpty then return read
  readAll stream (read ++ chunk)

/-- The bytes of a file, if it can be read. -/
def readFile? (path : String) : IO (Option (List UInt8)) := do
  let absolute := if path.startsWith "/" then "/" else ""
  try
    let bytes ← IO.FS.readBinFile (absolute ++ "/".intercalate (pathParts path))
    return some bytes.toList
  catch _ => return none

end Glass.CommandLine

open Glass.CommandLine in
def main (arguments : List String) : IO UInt32 := do
  let file :=
    match Command.ofArguments arguments with
    | .execute options => options.file
    | _ => none
  let input ← if file = some "-" then readAll (← IO.getStdin) .empty else pure .empty
  let content ←
    match file with
    | none => pure none
    | some name => if name = "-" then pure none else readFile? name
  let report := Session.run arguments input.toList (fun _ => content) {}
  (← IO.getStdout).putStr report.output
  (← IO.getStderr).putStr report.errors
  return UInt32.ofNat report.exitCode
