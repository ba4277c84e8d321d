import Glass.Text.Printable
import Glass.Token

/-!
The log of a run. Records have a level, and a threshold says which of them are shown.
-/

namespace Glass.CommandLine

inductive LogLevel where
  | debug | info
  deriving DecidableEq, Repr

structure LogRecord where
  level : LogLevel
  text : String

/-- Which records are shown. -/
inductive LogThreshold where
  | everything | information | nothing
  deriving DecidableEq, Repr

def LogThreshold.shows : LogThreshold → LogLevel → Bool
  | .everything, _ => true
  | .information, .info => true
  | _, _ => false

def LogLevel.name : LogLevel → String
  | .debug => "DEBUG"
  | .info => "INFO"

def LogRecord.line (r : LogRecord) : String :=
  s!"{r.level.name} glass_ref.runner: {r.text}\n"

/-- What a threshold lets through of a log. -/
def LogThreshold.render (threshold : LogThreshold) (log : List LogRecord) : String :=
  String.join ((log.filter fun r => threshold.shows r.level).map LogRecord.line)

/-- What a token carries, as the log shows it. -/
def payloadText : Payload → String
  | .number x => NumberStyle.logged.text x
  | .text s => logQuote s

def LogRecord.ofToken (t : Token) : LogRecord where
  level := .debug
  text :=
    s!"Tok({t.kind.name}, {payloadText t.payload}, {t.line}:{t.column}) at {t.span.render}"

end Glass.CommandLine
