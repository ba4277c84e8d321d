import Glass.Lexeme.NumberLiteral
import Glass.Text.Blank
import Glass.Text.Printable

/-!
Reading a number off a whole text. Blanks may stand around it and a sign before it, the words for
infinity and for what is no number are read in any case of letters, the digits may be of any script
and may start or end at the point, and single underscores may stand between them.
-/

namespace Glass

/-- Whether each underscore stands between two digits; `afterDigit` tells of the character before. -/
def underscoresFit (afterDigit : Bool) : List Char → Bool
  | [] => true
  | '_' :: rest =>
      afterDigit && (rest.head?.any Char.isDigit) && underscoresFit false rest
  | c :: rest => underscoresFit c.isDigit rest

/-- The numeral that a text without sign and underscores is. -/
def readNumeral? (text : List Char) : Option Decimal :=
  let whole := text.takeWhile Char.isDigit
  let behind := text.drop whole.length
  let places := if behind.head? = some '.' then (behind.drop 1).takeWhile Char.isDigit else []
  let behind := if behind.head? = some '.' then behind.drop (1 + places.length) else behind
  let exponent := NumberLiteral.exponentPart behind
  if (whole ++ places).isEmpty || exponent.length ≠ behind.length then none
  else some ⟨ofDigits 10 (whole ++ places), NumberLiteral.exponentValue exponent - places.length⟩

def readUnsigned? (text : List Char) : Option Float :=
  let word := String.ofList (text.map Char.toLower)
  if word = "inf" ∨ word = "infinity" then some (Number.ofSignAndBits false Number.infinityBits)
  else if word = "nan" then some Number.notANumber
  else if underscoresFit false text then
    (readNumeral? (text.filter (· != '_'))).map Decimal.toFloat
  else none

/-- The blanks that may stand around a number; the ASCII separators are not among them. -/
def isNumberMargin (c : Char) : Bool :=
  isBlank c && !(0x1c ≤ c.toNat && c.toNat ≤ 0x1f)

/-- A decimal digit of any script as the ASCII digit of the same value. -/
def asAsciiDigit (c : Char) : Char :=
  match decimalDigit? c with
  | some value => value.digitChar
  | none => c

/-- The number that a text spells. -/
def readNumber? (text : String) : Option Float :=
  match (trim isNumberMargin text.toList).map asAsciiDigit with
  | '+' :: rest => readUnsigned? rest
  | '-' :: rest => (readUnsigned? rest).map fun x => -x
  | rest => readUnsigned? rest

end Glass
