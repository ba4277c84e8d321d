import Glass.Lexeme.NumberLiteral
import Glass.Lexeme.StringLiteral
import Glass.Text.Position
import Glass.Token

/-!
Lexemes: the stretch of text that one token takes. Scanning a lexeme looks only at the text from its
first character on, and knows nothing of positions; those are added when it is placed. For the tokens
of a whole text it is walked through once, and each character either belongs to the lexeme or trivia
already seen, or starts the next one.
-/

namespace Glass

/-- The stretch taken, and within it the part that the token's span covers. The two differ only for
a meaningless escape, which takes its whole literal and covers the escape. -/
structure Lexeme where
  kind : Kind
  payload : Payload
  source : List Char
  skip : Nat
  width : Nat

def Lexeme.whole (kind : Kind) (payload : Payload) (source : List Char) : Lexeme :=
  ⟨kind, payload, source, 0, source.length⟩

/-- A lexeme that carries its own spelling. -/
def Lexeme.verbatim (kind : Kind) (source : List Char) : Lexeme :=
  .whole kind (.text (String.ofList source)) source

/-- An escape without meaning counts before a missing quote, since it comes first. -/
def Lexeme.ofString (body : StringBody) : Lexeme :=
  match body.fault? with
  | some part =>
      { kind := .flaw .invalidEscape
        payload := .text (String.ofList part.source)
        source := body.source
        skip := 1 + (body.sound.flatMap StringPart.source).length
        width := part.source.length }
  | none =>
      if body.closed then .whole .string (.text (String.ofList body.value)) body.source
      else .verbatim (.flaw .unclosedString) body.source

def isWordStart (c : Char) : Bool := c.isAlpha || c == '_'

def isWordChar (c : Char) : Bool := c.isAlphanum || c == '_'

def Lexeme.ofWord (word : List Char) : Lexeme :=
  match Keyword.ofSpelling? (String.ofList word) with
  | some k => .verbatim (.keyword k) word
  | none => .verbatim .identifier word

/-- The lexeme that `text` starts with. Where nothing fits, one character is taken as unknown. -/
def Lexeme.scan : (text : List Char) → Lexeme
  | [] => .verbatim (.flaw .unknownToken) []
  | c :: rest =>
      if c = '"' then .ofString (.read rest)
      else if c.isDigit then
        let literal := NumberLiteral.read (c :: rest)
        .whole .number (.number literal.value) literal.source
      else if isWordStart c then .ofWord ((c :: rest).takeWhile isWordChar)
      else
        match Symbol.atFront? (c :: rest) with
        | some s => .verbatim (.symbol s) s.spelling.toList
        | none => .verbatim (.flaw .unknownToken) [c]

/-- The token a lexeme gives when it starts at `p`. -/
def Lexeme.token (l : Lexeme) (p : Position) : Token :=
  let start := p.after (l.source.take l.skip)
  { kind := l.kind
    payload := l.payload
    span := { start := p.offset + l.skip, stop := p.offset + l.skip + l.width }
    line := start.line
    column := start.column }

def isWhitespace (c : Char) : Bool := c == ' ' || c == '\t' || c == '\r' || c == '\n'

/-- How much of the front of `text` is whitespace and comments, where `inComment` says whether a
comment is already open. A comment runs up to a line feed. -/
def triviaLength (inComment : Bool) : (text : List Char) → Nat
  | [] => 0
  | c :: rest =>
      if inComment then triviaLength (c != '\n') rest + 1
      else if isWhitespace c then triviaLength false rest + 1
      else if ['/', '/'].isPrefixOf (c :: rest) then triviaLength true rest + 1
      else 0

/-- A lexeme and the place it starts at. -/
structure PlacedLexeme where
  start : Position
  lexeme : Lexeme

def PlacedLexeme.token (l : PlacedLexeme) : Token := l.lexeme.token l.start

/-- The lexemes of `text`, which starts at `p` and whose first `taken` characters are spoken for. -/
def placedLexemes : (taken : Nat) → (p : Position) → (text : List Char) → List PlacedLexeme
  | _, _, [] => []
  | taken + 1, p, c :: rest => placedLexemes taken (p.step c) rest
  | 0, p, c :: rest =>
      match triviaLength false (c :: rest) with
      | taken + 1 => placedLexemes taken (p.step c) rest
      | 0 =>
          let lexeme := Lexeme.scan (c :: rest)
          ⟨p, lexeme⟩ :: placedLexemes (lexeme.source.length - 1) (p.step c) rest

/-- The lexemes of a whole text. -/
def lexemesOf (source : String) : List PlacedLexeme := placedLexemes 0 {} source.toList

def tokenize (source : String) : List Token := (lexemesOf source).map PlacedLexeme.token

end Glass
