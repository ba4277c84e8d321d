import Glass.Diagnostic
import Glass.Lexeme
import Glass.Parser.Machine

/-!
A parser holds the tokens that are still to be read, and the source they come from for reporting
faults. Reading one token and parsing towards a goal take tokens off the front, and a parser can be
used on after it has failed.
-/

namespace Glass

structure Parser where
  source : String
  filename : Option String
  tokens : List Token

namespace Parser

def ofText (source : String) (filename : Option String) : Parser :=
  { source, filename, tokens := tokenize source }

/-- The diagnostic for a token that is a flaw in the text. -/
def flawDiagnostic (p : Parser) (t : Token) : Diagnostic :=
  match t.kind with
  | .flaw .unknownToken => .unknownToken p.source t.span p.filename
  | .flaw .unclosedString => ⟨.unclosedString, some p.source, some t.span, p.filename⟩
  | .flaw .invalidEscape =>
      ⟨.unknownEscape t.payload.toText, some p.source, some t.span, p.filename⟩
  | kind => { cause := .internal s!"{kind.name} is not a lexical error" }

def failure (p : Parser) : Fault → Failure
  | .unexpected expected found =>
      .diagnostic (.unexpectedToken expected found p.source p.filename)
  | .flawed found => .diagnostic (p.flawDiagnostic found)
  | .unsupported found =>
      .diagnostic
        ⟨.unsupportedStatement found.payload.toText, some p.source, some found.span, p.filename⟩
  | .endOfInput => .diagnostic (.unexpectedEnd p.filename (some p.source))
  | .tooDeep => .tooDeep

def peek? (p : Parser) : Option Token := p.tokens.head?

/-- Whether the next token is of one of the given kinds. -/
def check (p : Parser) (kinds : List Kind) : Bool :=
  match p.peek? with
  | none => false
  | some t => kinds.contains t.kind

/-- Take the next token. A flaw is taken too, and then reported. -/
def advance (p : Parser) : Except Fault Token × Parser :=
  match p.tokens with
  | [] => (.error .endOfInput, p)
  | t :: rest =>
      (if t.kind.isFlaw then .error (.flawed t) else .ok t, { p with tokens := rest })

/-- Take the next token if it is of one of the given kinds. -/
def accept? (p : Parser) (kinds : List Kind) : Except Fault (Option Token) × Parser :=
  if p.check kinds then
    let (taken, rest) := p.advance
    (taken.map some, rest)
  else (.ok none, p)

/-- Take the next token, which must be of the given kind. A token of another kind is left, unless it
is a flaw. -/
def expect (p : Parser) (kind : Kind) : Except Fault Token × Parser :=
  match p.tokens with
  | [] => (.error .endOfInput, p)
  | t :: _ =>
      if t.kind = kind || t.kind.isFlaw then p.advance
      else (.error (.unexpected (some kind) t), p)

/-- Parse towards a goal. -/
def parse (p : Parser) (goal : Goal) (limits : Limits) : Except Fault Tree × Parser :=
  let (result, rest) := (State.initial goal).run limits.nesting p.tokens
  (result, { p with tokens := rest })

/-- Parse the arguments of a call, behind its name and opening bracket. -/
def parseCall (p : Parser) (name : Token) (limits : Limits) : Except Fault Tree × Parser :=
  let (result, rest) := (State.inCall name).run limits.nesting p.tokens
  (result, { p with tokens := rest })

/-- What can be asked of a parser. -/
inductive Step where
  | peek
  | check (kinds : List Kind)
  | advance
  | accept (kinds : List Kind)
  | expect (kind : Kind)
  | parse (goal : Goal)
  | parseCall (name : Token)

inductive Answer where
  | peeked (token : Option Token)
  | checked (fits : Bool)
  | taken (token : Except Fault Token)
  | accepted (token : Except Fault (Option Token))
  | parsed (tree : Except Fault Tree)

/-- Do one step; the parser that is left is the one for the next step, even if this one failed. -/
def perform (p : Parser) (limits : Limits) : Step → Answer × Parser
  | .peek => (.peeked p.peek?, p)
  | .check kinds => (.checked (p.check kinds), p)
  | .advance => let (token, rest) := p.advance; (.taken token, rest)
  | .accept kinds => let (token, rest) := p.accept? kinds; (.accepted token, rest)
  | .expect kind => let (token, rest) := p.expect kind; (.taken token, rest)
  | .parse goal => let (tree, rest) := p.parse goal limits; (.parsed tree, rest)
  | .parseCall name => let (tree, rest) := p.parseCall name limits; (.parsed tree, rest)

/-- The tree of a whole program. -/
def program (p : Parser) (limits : Limits) : Except Failure Tree :=
  (p.parse .program limits).1.mapError p.failure

end Parser

/-- The tree of a program given by its text. -/
def parseProgram (source : String) (filename : Option String) (limits : Limits) :
    Except Failure Tree :=
  (Parser.ofText source filename).program limits

end Glass
