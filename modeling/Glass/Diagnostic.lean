import Glass.Text.Blank
import Glass.Text.Position
import Glass.Token

/-!
Diagnostics and other failures. A diagnostic is a cause, worded in one place, and as much as is known
of where it arose; one that knows both its source text and its span is located, and can show the line
it points at. The failures that are no diagnostics cannot arise from a program's text, except that any
text can nest too deeply, for which there are limits.
-/

namespace Glass

/-- The name that stands for a source without one. -/
def defaultFilename : String := "<input>"

def version : String := "0.1.0"

inductive Cause where
  | general (message : String)
  | unsupported (message : String)
  /-- A fault of the interpreter itself. -/
  | internal (detail : String)
  | unknownToken (found : String)
  | unclosedString
  | unknownEscape (escape : String)
  | unexpectedToken (expected : Option Kind) (actual : Token) (found : String)
  | unexpectedEnd (filename : String)
  | invalidOperation (operation left right : String)
  | invalidUnaryOperation (operation operand : String)
  | undefinedName (name : String)
  | unreadableFile (filename : String)

def Cause.message : Cause → String
  | .general message => message
  | .unsupported message => message
  | .internal detail =>
      s!"Unknown error '{detail}'. Please report this bug with the following information: " ++
        s!"Glass Version = '{version}'"
  | .unknownToken found => s!"Unknown token '{found}' encountered"
  | .unclosedString => "Unclosed string literal"
  | .unknownEscape escape => s!"Unknown escape sequence '{escape}'"
  | .unexpectedToken (some kind) _ found =>
      s!"Expected '{kind.describe}' but found '{found}' instead"
  | .unexpectedToken none _ found => s!"Unexpected token '{found}'"
  | .unexpectedEnd filename => s!"Unexpected end of input in source file '{filename}'"
  | .invalidOperation operation left right =>
      s!"Cannot use operation '{operation}' on type '{left}' and '{right}'"
  | .invalidUnaryOperation operation operand =>
      s!"Unary operator '{operation}' cannot be applied to type '{operand}'"
  | .undefinedName name => s!"Name '{name}' not found"
  | .unreadableFile filename => s!"Could not read source file '{filename}'"

/-- A statement that starts with a word the parser refuses. -/
def Cause.unsupportedStatement (word : String) : Cause :=
  .unsupported s!"'{word}' statements are not supported"

structure Diagnostic where
  cause : Cause
  source : Option String := none
  span : Option Span := none
  filename : Option String := none

/-- The place of a span in its source: the line it starts on and where that line lies. -/
structure LineView where
  /-- The number of the line, from one. -/
  number : Nat
  /-- The offset of the line's first character. -/
  start : Nat
  /-- The offset of the line feed that ends the line, or the end of the source. -/
  stop : Nat

/-- The line that holds `offset`; an offset past the end is on the last line. -/
def LineView.ofOffset (source : List Char) (offset : Nat) : LineView :=
  let before := source.take offset
  let sameLine := before.reverse.takeWhile (· != '\n')
  let after := (source.drop offset).takeWhile (· != '\n')
  { number := before.count '\n' + 1
    start := before.length - sameLine.length
    stop := before.length + after.length }

namespace Diagnostic

def message (d : Diagnostic) : String := d.cause.message

/-- The source and the span, if both are known. -/
def location? (d : Diagnostic) : Option (List Char × Span) :=
  match d.source, d.span with
  | some source, some span => some (source.toList, span)
  | _, _ => none

def isLocated (d : Diagnostic) : Bool := d.location?.isSome

/-- Say where a diagnostic arose, unless that is known or the source or span is missing. A file name
that is already there stays. -/
def attach (d : Diagnostic) (source : Option String) (span : Option Span)
    (filename : Option String) : Diagnostic :=
  if d.isLocated || source.isNone || span.isNone then d
  else { d with source, span, filename := d.filename.or filename }

def line? (d : Diagnostic) : Option Nat :=
  d.location?.map fun (source, span) => (LineView.ofOffset source span.start).number

/-- The column of the span's start, from one. -/
def column? (d : Diagnostic) : Option Nat :=
  d.location?.map fun (source, span) =>
    span.start - (LineView.ofOffset source span.start).start + 1

/-- The text under the span, without blanks around it. -/
def offendingText (d : Diagnostic) : String :=
  match d.location? with
  | none => ""
  | some (source, span) => String.ofList (trimBlanks (span.slice source))

/-- The line a span starts on, and the carets that mark the part of the span on it. Tabs stay in
front of the carets, so that these stand under what they mark. -/
def render (d : Diagnostic) : String :=
  match d.location? with
  | none => d.message
  | some (source, span) =>
      let line := LineView.ofOffset source span.start
      let text := trimEnd (· == '\r') ((source.drop line.start).take (line.stop - line.start))
      let first := span.start - line.start
      let last := max first (min span.stop line.stop - line.start)
      let pad := (text.take first).map fun c => if c == '\t' then '\t' else ' '
      let carets := List.replicate (max 1 (last - first)) '^'
      let filename :=
        match d.filename with
        | none | some "" => defaultFilename
        | some name => name
      "\n".intercalate
        [d.message, String.ofList text, String.ofList (pad ++ carets),
          s!"[{filename}(Ln:{line.number}, Col:{first}..{last})]"]

/-- The message in one line, with the place if it is known. -/
def summary (d : Diagnostic) : String :=
  match d.line?, d.column? with
  | some line, some column => s!"{d.message} (line {line}, col {column})"
  | _, _ => d.message

/-- How messages quote the text under a span. -/
def quote (source : String) (span : Span) : String :=
  String.ofList (trimBlanks (span.slice source.toList))

def unknownToken (source : String) (span : Span) (filename : Option String) : Diagnostic :=
  ⟨.unknownToken (quote source span), some source, some span, filename⟩

def unexpectedToken (expected : Option Kind) (actual : Token) (source : String)
    (filename : Option String) : Diagnostic :=
  ⟨.unexpectedToken expected actual (quote source actual.span), some source, some actual.span,
    filename⟩

/-- The end of a source is reported under the default name if the source has none. -/
def unexpectedEnd (filename : Option String) (source : Option String) : Diagnostic :=
  let name :=
    match filename with
    | none | some "" => defaultFilename
    | some name => name
  let span := source.map fun text => { start := text.length, stop := text.length }
  ⟨.unexpectedEnd name, source, span, some name⟩

def unreadableFile (filename : String) : Diagnostic :=
  ⟨.unreadableFile filename, none, none, some filename⟩

end Diagnostic

/-- What is wrong with a node whose children do not fit its label. -/
inductive Malformation where
  | noChild
  | childCount
  /-- A number is to be made of a text that spells none. -/
  | numberText
  /-- A number is to be made of a child that has no text. -/
  | numberChild
  /-- A name is to be made of a child that is no token. -/
  | nameChild
  /-- A string is to be added to, multiplied or shown that holds no text. -/
  | heldChild
  /-- A whole number that a string holds is past the range of doubles. -/
  | heldRange
  deriving DecidableEq, Repr

inductive Failure where
  | diagnostic (d : Diagnostic)
  | badSpan (b : BadSpan)
  | malformed (m : Malformation)
  | tooDeep

def Failure.ofCause (cause : Cause) : Failure := .diagnostic { cause }

/-- Bounds on nesting. Whatever goes down into nested things keeps calls open on the way, and all of
them have to find room on a stack of a thousand. The bounds leave out the calls that are open before
anything nests, and lie far above what programs need. -/
structure Limits where
  /-- For parsing: the calls that open brackets and signs keep open. The outermost expression takes
  the other 31. -/
  nesting : Nat := 969
  /-- For evaluation: the nodes that may lie inside one another. Each keeps four calls open, two to
  evaluate it and locate what fails, and two to apply its operator. -/
  evaluation : Nat := 247
  /-- For outlines of trees: the nodes that may lie inside one another. Each keeps one call open. -/
  outline : Nat := 970
  /-- For looking a name up from a frame: the frames that may be asked for it. Each keeps one call
  open. -/
  lookup : Nat := 990
  /-- For comparing values outside of programs: the levels of lists and dictionaries, with that of
  the parts inside. Each keeps three calls open, one to compare the values, one to go through their
  parts and one to fetch the next. -/
  equality : Nat := 330
  deriving DecidableEq, Repr

end Glass
