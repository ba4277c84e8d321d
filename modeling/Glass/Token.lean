import Glass.Number.Style
import Glass.Text.Span

/-!
Tokens: a kind, what the token carries, and where it stands in the text. The kinds are literals and
names, the fixed symbols and keywords, and the flaws that stand where the text holds no token. Each
kind has a name for listings and, if it is fixed, one spelling.
-/

namespace Glass

inductive Symbol where
  | plus | minus | star | power | slash | percent
  | assign | plusAssign | minusAssign | starAssign | slashAssign | percentAssign | powerAssign
  | equal | notEqual | less | lessEqual | greater | greaterEqual
  | leftParen | rightParen | leftBrace | rightBrace | leftBracket | rightBracket
  | semicolon | comma | dot | dotDot | dotDotEqual | ellipsis | hash
  deriving DecidableEq, Repr

def Symbol.spelling : Symbol → String
  | .plus => "+" | .minus => "-" | .star => "*" | .power => "**" | .slash => "/" | .percent => "%"
  | .assign => "=" | .plusAssign => "+=" | .minusAssign => "-=" | .starAssign => "*="
  | .slashAssign => "/=" | .percentAssign => "%=" | .powerAssign => "**="
  | .equal => "==" | .notEqual => "!=" | .less => "<" | .lessEqual => "<=" | .greater => ">"
  | .greaterEqual => ">="
  | .leftParen => "(" | .rightParen => ")" | .leftBrace => "\x7b" | .rightBrace => "\x7d"
  | .leftBracket => "[" | .rightBracket => "]"
  | .semicolon => ";" | .comma => "," | .dot => "." | .dotDot => ".." | .dotDotEqual => "..="
  | .ellipsis => "..." | .hash => "#"

def Symbol.name : Symbol → String
  | .plus => "PLUS" | .minus => "MINUS" | .star => "STAR" | .power => "POW" | .slash => "SLASH"
  | .percent => "MOD"
  | .assign => "ASSIGN" | .plusAssign => "PLUSEQ" | .minusAssign => "MINUSEQ"
  | .starAssign => "STAREQ" | .slashAssign => "SLASHEQ" | .percentAssign => "MODEQ"
  | .powerAssign => "POWEQ"
  | .equal => "EQ" | .notEqual => "NEQ" | .less => "LT" | .lessEqual => "LTE" | .greater => "GT"
  | .greaterEqual => "GTE"
  | .leftParen => "LPAR" | .rightParen => "RPAR" | .leftBrace => "LBRACE" | .rightBrace => "RBRACE"
  | .leftBracket => "LSQB" | .rightBracket => "RSQB"
  | .semicolon => "SEMI" | .comma => "COMMA" | .dot => "DOT" | .dotDot => "DOTDOT"
  | .dotDotEqual => "DOTDOTEQ" | .ellipsis => "ELLIPSIS" | .hash => "HASH"

/-- All symbols, longer spellings before shorter ones. -/
def Symbol.longestFirst : List Symbol :=
  [.powerAssign, .dotDotEqual, .ellipsis,
    .equal, .notEqual, .lessEqual, .greaterEqual, .plusAssign, .minusAssign, .starAssign,
    .slashAssign, .percentAssign, .power, .dotDot,
    .plus, .minus, .star, .slash, .percent, .assign, .less, .greater, .leftParen, .rightParen,
    .leftBrace, .rightBrace, .leftBracket, .rightBracket, .semicolon, .comma, .dot, .hash]

theorem Symbol.mem_longestFirst (s : Symbol) : s ∈ Symbol.longestFirst := by
  cases s <;> decide

/-- The longest symbol that `text` starts with. -/
def Symbol.atFront? (text : List Char) : Option Symbol :=
  Symbol.longestFirst.find? fun s => s.spelling.toList.isPrefixOf text

inductive Keyword where
  | notWord | andWord | orWord
  | ifWord | elseWord | whileWord | forWord | inWord | returnWord | breakWord | continueWord
  | importWord | matchWord
  | trueWord | falseWord | voidWord | funcWord
  deriving DecidableEq, Repr

def Keyword.spelling : Keyword → String
  | .notWord => "not" | .andWord => "and" | .orWord => "or"
  | .ifWord => "if" | .elseWord => "else" | .whileWord => "while" | .forWord => "for"
  | .inWord => "in" | .returnWord => "return" | .breakWord => "break"
  | .continueWord => "continue" | .importWord => "import" | .matchWord => "match"
  | .trueWord => "true" | .falseWord => "false" | .voidWord => "void" | .funcWord => "func"

def Keyword.name : Keyword → String
  | .notWord => "NOT" | .andWord => "AND" | .orWord => "OR"
  | .ifWord => "IF" | .elseWord => "ELSE" | .whileWord => "WHILE" | .forWord => "FOR"
  | .inWord => "IN" | .returnWord => "RETURN" | .breakWord => "BREAK"
  | .continueWord => "CONTINUE" | .importWord => "IMPORT" | .matchWord => "MATCH"
  | .trueWord => "TRUE" | .falseWord => "FALSE" | .voidWord => "VOID" | .funcWord => "FUNC"

def Keyword.all : List Keyword :=
  [.notWord, .andWord, .orWord, .ifWord, .elseWord, .whileWord, .forWord, .inWord, .returnWord,
    .breakWord, .continueWord, .importWord, .matchWord, .trueWord, .falseWord, .voidWord, .funcWord]

theorem Keyword.mem_all (k : Keyword) : k ∈ Keyword.all := by
  cases k <;> decide

def Keyword.ofSpelling? (word : String) : Option Keyword :=
  Keyword.all.find? fun k => k.spelling == word

/-- Statements begin with these words in the language, but none of them can be parsed. -/
def Keyword.startsUnsupported : Keyword → Bool
  | .notWord | .andWord | .orWord | .trueWord | .falseWord | .voidWord => false
  | _ => true

/-- What a stretch of text is that forms no token. -/
inductive Flaw where
  | unknownToken | unclosedString | invalidEscape
  deriving DecidableEq, Repr

inductive Kind where
  | number | identifier | string
  | symbol (s : Symbol)
  | keyword (k : Keyword)
  | flaw (f : Flaw)
  deriving DecidableEq, Repr

def Kind.name : Kind → String
  | .number => "NUMBER" | .identifier => "IDENTIFIER" | .string => "STRING"
  | .symbol s => s.name
  | .keyword k => k.name
  | .flaw .unknownToken => "UNKNOWN_TOKEN"
  | .flaw .unclosedString => "UNCLOSED_STRING"
  | .flaw .invalidEscape => "INVALID_ESCAPE"

def Kind.all : List Kind :=
  [.number, .identifier, .string] ++ Symbol.longestFirst.map .symbol ++ Keyword.all.map .keyword ++
    [.flaw .unknownToken, .flaw .unclosedString, .flaw .invalidEscape]

def Kind.ofName? (name : String) : Option Kind :=
  Kind.all.find? fun k => k.name == name

/-- How messages call a kind: by its spelling if it has one. -/
def Kind.describe : Kind → String
  | .number => "number" | .identifier => "identifier" | .string => "string"
  | .symbol s => s.spelling
  | .keyword k => k.spelling
  | .flaw .unknownToken => "unknown_token"
  | .flaw .unclosedString => "unclosed_string"
  | .flaw .invalidEscape => "invalid_escape"

def Kind.isFlaw : Kind → Bool
  | .flaw _ => true
  | _ => false

def Kind.isAssignment : Kind → Bool
  | .symbol .assign | .symbol .plusAssign | .symbol .minusAssign | .symbol .starAssign
  | .symbol .slashAssign | .symbol .percentAssign | .symbol .powerAssign => true
  | _ => false

def Kind.startsUnsupported : Kind → Bool
  | .keyword k => k.startsUnsupported
  | _ => false

inductive Payload where
  | number (value : Float)
  | text (value : String)

/-- What a token carries, as text; a number as logs write it. -/
def Payload.toText : Payload → String
  | .number x => NumberStyle.logged.text x
  | .text s => s

structure Token where
  kind : Kind
  payload : Payload
  span : Span
  line : Nat
  column : Nat

end Glass
