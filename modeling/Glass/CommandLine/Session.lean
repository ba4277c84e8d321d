import Glass.CommandLine.Arguments
import Glass.CommandLine.Directory
import Glass.CommandLine.Log
import Glass.Program
import Glass.Text.Utf8
import Glass.Tree.Outline

/-!
One use of the command line: from the arguments, the standard input and the files to what is written
and the exit code. A file that is missing, a directory or not text cannot be read; standard input that
is not text is a fault of its own.
-/

namespace Glass.CommandLine

/-- What a session leaves behind. -/
structure Report where
  exitCode : Nat
  output : String := ""
  errors : String := ""

/-- Results with the log that was written on the way to them. -/
structure Logged (α : Type) where
  log : List LogRecord
  result : α

namespace Session

def threshold (options : Options) : LogThreshold :=
  if options.debug then .everything else if options.verbose then .information else .nothing

/-- The diagnostic a session ends with. -/
def diagnose : Failure → Diagnostic
  | .diagnostic d => d
  | .badSpan b => { cause := .internal s!"ValueError: {b.message}" }
  | .malformed _ => { cause := .internal "malformed tree" }
  | .tooDeep => { cause := .internal "maximum nesting depth exceeded" }

/-- The outline of a tree that is not too deep. -/
def outline (t : Tree) (limits : Limits) : Except Failure String :=
  if limits.outline < t.height then .error .tooDeep else .ok t.outline

/-- Run a program and log its tokens, its tree and its value. -/
def runLogged (source filename : String) (limits : Limits) : Logged (Except Failure Value) :=
  let tokens := (tokenize source).map LogRecord.ofToken
  match parseProgram source (some filename) limits with
  | .error failure => ⟨tokens, .error failure.reported⟩
  | .ok tree =>
      match outline tree limits with
      | .error failure => ⟨tokens, .error failure.reported⟩
      | .ok lines =>
          let drawn := tokens ++ [⟨.debug, "AST > " ++ lines⟩]
          match evaluate tree (some source) (some filename) [] limits >>= Operand.toValue with
          | .error failure => ⟨drawn, .error failure.reported⟩
          | .ok value => ⟨drawn ++ [⟨.debug, "Result > " ++ value.render⟩], .ok value⟩

/-- The program text of a session. -/
def load (file : String) (input : List UInt8) (read? : String → Option (List UInt8)) :
    Logged (Except Diagnostic String) :=
  if file = "-" then
    match decodeUtf8 input with
    | .ok text => ⟨[], .ok (String.ofList (unifyLineEnds text))⟩
    | .error e => ⟨[], .error { cause := .internal ("UnicodeDecodeError: " ++ e.message) }⟩
  else if file.toList.contains '\x00' then
    ⟨[], .error { cause := .internal "ValueError: embedded null byte" }⟩
  else
    match (read? file).map decodeUtf8 with
    | some (.ok text) =>
        let text := unifyLineEnds text
        ⟨[⟨.debug, s!"Read {text.length} characters from '{file}'"⟩], .ok (String.ofList text)⟩
    | _ => ⟨[], .error (.unreadableFile file)⟩

/-- The report of a failed session. -/
def fatal (log : String) (d : Diagnostic) : Report where
  exitCode := 1
  errors := log ++ "Fatal exception during execution -> " ++ d.render ++ "\n"

/-- Load and run the program that the options name. -/
def execute (options : Options) (input : List UInt8) (read? : String → Option (List UInt8))
    (limits : Limits) : Report :=
  let shown := (threshold options).render
  match options.file with
  | none => fatal "" { cause := .unsupported "REPL not implemented yet" }
  | some file =>
      let filename := if file = "-" then "<stdin>" else file
      let loaded := load file input read?
      match loaded.result with
      | .error d => fatal (shown loaded.log) d
      | .ok source =>
          let executed :=
            if options.debug then runLogged source filename limits
            else ⟨[], Glass.run source filename [] limits⟩
          let log := shown (loaded.log ++ ⟨.info, s!"Running '{filename}'"⟩ :: executed.log)
          match executed.result with
          | .error failure => fatal log (diagnose failure)
          | .ok .void => { exitCode := 0, errors := log }
          | .ok value => { exitCode := 0, output := value.render ++ "\n", errors := log }

/-- Do what a command line asks for, with `read?` giving the bytes of files. -/
def run (arguments : List String) (input : List UInt8) (read? : String → Option (List UInt8))
    (limits : Limits) : Report :=
  match Command.ofArguments arguments with
  | .showHelp => { exitCode := 0, output := helpText }
  | .showVersion => { exitCode := 0, output := s!"glass {version}\n" }
  | .refuse error =>
      { exitCode := 2, errors := usage ++ "glass: error: " ++ error.message ++ "\n" }
  | .execute options => execute options input read? limits

end Session

end Glass.CommandLine
