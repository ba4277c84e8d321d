import Glass.Lexeme

/-!
A scanner is a text with a place in it that moves forward, and a mark at the start of the last token.
Any number of token streams can be opened on one scanner. They share its place: a stream goes back to
the start of the text when its first token is asked for, and not before, and once it has reached the
end it stays there.
-/

namespace Glass

inductive TokenStream where
  | fresh | running | ended
  deriving DecidableEq, Repr

structure Scanner where
  source : List Char
  place : Position := {}
  mark : Position := {}
  streams : List TokenStream := []

namespace Scanner

def ofText (source : String) : Scanner := { source := source.toList }

/-- The text from the current place on. -/
def rest (s : Scanner) : List Char := s.source.drop s.place.offset

/-- The character `ahead` places further on; none past the end. -/
def peek? (s : Scanner) (ahead : Nat) : Option Char := s.source[s.place.offset + ahead]?

/-- Move behind the next `count` characters, or to the end if there are fewer. -/
def skip (s : Scanner) (count : Nat) : Scanner :=
  { s with place := s.place.after (s.rest.take count) }

/-- Take the next `count` characters; a negative count is refused and given back. -/
def advance (s : Scanner) (count : Int) : Except Int (List Char) × Scanner :=
  if count < 0 then (.error count, s)
  else (.ok (s.rest.take count.toNat), s.skip count.toNat)

def setMark (s : Scanner) : Scanner := { s with mark := s.place }

def skipTrivia (s : Scanner) : Scanner := s.skip (triviaLength false s.rest)

/-- Scan whatever stands at the current place, even trivia or the end. -/
def scanToken (s : Scanner) : Token × Scanner :=
  let lexeme := Lexeme.scan s.rest
  (lexeme.token s.place, s.setMark.skip lexeme.source.length)

/-- Open a stream; streams are numbered from zero. -/
def openStream (s : Scanner) : Nat × Scanner :=
  (s.streams.length, { s with streams := s.streams ++ [.fresh] })

def setStream (s : Scanner) (index : Nat) (stream : TokenStream) : Scanner :=
  { s with streams := s.streams.set index stream }

/-- The scanner as stream `index` finds it, if that stream has not ended. -/
def enter? (s : Scanner) (index : Nat) : Option Scanner :=
  match s.streams[index]? with
  | some .fresh => some ({ s with place := {} }.setStream index .running)
  | some .running => some s
  | some .ended => none
  | none => none

/-- The next token of a stream; none at its end. -/
def next (s : Scanner) (index : Nat) : Option Token × Scanner :=
  match s.enter? index with
  | none => (none, s)
  | some entered =>
      let ready := entered.skipTrivia
      if ready.rest.isEmpty then (none, ready.setStream index .ended)
      else
        let (token, behind) := ready.scanToken
        (some token, behind)

/-- All the tokens that a stream has left. -/
def drain (s : Scanner) (index : Nat) : List Token × Scanner :=
  match s.enter? index with
  | none => ([], s)
  | some entered =>
      let lexemes := placedLexemes 0 entered.place entered.rest
      let marked :=
        match lexemes.getLast? with
        | none => entered
        | some last => { entered with mark := last.start }
      (lexemes.map PlacedLexeme.token, (marked.skip marked.rest.length).setStream index .ended)

/-- What can be asked of a scanner. -/
inductive Step where
  | peek (ahead : Nat)
  | advance (count : Int)
  | setMark
  | skipTrivia
  | scanToken
  | openStream
  | next (stream : Nat)
  | drain (stream : Nat)

inductive Answer where
  | peeked (c : Option Char)
  | advanced (text : Except Int (List Char))
  | done
  | scanned (token : Token)
  | opened (stream : Nat)
  | delivered (token : Option Token)
  | drained (tokens : List Token)

/-- Do one step; the scanner that is left is the one for the next step. -/
def perform (s : Scanner) : Step → Answer × Scanner
  | .peek ahead => (.peeked (s.peek? ahead), s)
  | .advance count => let (text, next) := s.advance count; (.advanced text, next)
  | .setMark => (.done, s.setMark)
  | .skipTrivia => (.done, s.skipTrivia)
  | .scanToken => let (token, next) := s.scanToken; (.scanned token, next)
  | .openStream => let (stream, next) := s.openStream; (.opened stream, next)
  | .next stream => let (token, next) := s.next stream; (.delivered token, next)
  | .drain stream => let (tokens, next) := s.drain stream; (.drained tokens, next)

end Scanner

end Glass
