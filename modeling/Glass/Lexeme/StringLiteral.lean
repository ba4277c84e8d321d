/-!
String literals. Behind its opening quote a literal is a row of parts, each a plain character or a
backslash with the character it escapes. It ends at a bare quote; a line feed or the end of the text
leaves it unclosed, and a backslash there escapes nothing.
-/

namespace Glass

inductive StringPart where
  | plain (c : Char)
  | escape (c : Char)
  | loneBackslash
  deriving DecidableEq, Repr

/-- The part as it is written. -/
def StringPart.source : StringPart → List Char
  | .plain c => [c]
  | .escape c => ['\\', c]
  | .loneBackslash => ['\\']

def unescape? : Char → Option Char
  | 'n' => some '\n'
  | 't' => some '\t'
  | 'r' => some '\r'
  | '0' => some '\x00'
  | '\\' => some '\\'
  | '"' => some '"'
  | '\x27' => some '\x27'
  | _ => none

/-- The character the part stands for, unless it is an escape that has no meaning. -/
def StringPart.value? : StringPart → Option Char
  | .plain c => some c
  | .escape c => unescape? c
  | .loneBackslash => none

structure StringBody where
  parts : List StringPart
  closed : Bool
  deriving DecidableEq, Repr

def StringBody.cons (part : StringPart) (body : StringBody) : StringBody :=
  { body with parts := part :: body.parts }

/-- The literal whose opening quote stands just before `text`. -/
def StringBody.read : (text : List Char) → StringBody
  | [] => ⟨[], false⟩
  | '"' :: _ => ⟨[], true⟩
  | '\n' :: _ => ⟨[], false⟩
  | '\\' :: '\n' :: _ => ⟨[.loneBackslash], false⟩
  | ['\\'] => ⟨[.loneBackslash], false⟩
  | '\\' :: c :: rest => (StringBody.read rest).cons (.escape c)
  | c :: rest => (StringBody.read rest).cons (.plain c)

/-- The literal as it is written, quotes included. -/
def StringBody.source (body : StringBody) : List Char :=
  '"' :: body.parts.flatMap StringPart.source ++ if body.closed then ['"'] else []

/-- The parts before the first meaningless escape. -/
def StringBody.sound (body : StringBody) : List StringPart :=
  body.parts.takeWhile fun part => part.value?.isSome

/-- The first meaningless escape. -/
def StringBody.fault? (body : StringBody) : Option StringPart :=
  body.parts.find? fun part => part.value?.isNone

/-- The text a literal without meaningless escapes stands for. -/
def StringBody.value (body : StringBody) : List Char :=
  body.parts.filterMap StringPart.value?

def escapeChar : Char → List Char
  | '\\' => ['\\', '\\']
  | '"' => ['\\', '"']
  | '\n' => ['\\', 'n']
  | '\t' => ['\\', 't']
  | '\r' => ['\\', 'r']
  | '\x00' => ['\\', '0']
  | c => [c]

/-- The inside of a literal that stands for `text`. -/
def escapeText (text : List Char) : List Char := text.flatMap escapeChar

end Glass
