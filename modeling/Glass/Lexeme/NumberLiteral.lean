import Glass.Number.Decimal

/-!
Number literals: decimal numerals, and integers in base sixteen, eight or two. A point, an exponent
mark or a base letter belongs to the literal only if a digit stands behind it.
-/

namespace Glass

inductive Base where
  | hexadecimal | octal | binary
  deriving DecidableEq, Repr

def Base.ofLetter? : Char → Option Base
  | 'x' | 'X' => some .hexadecimal
  | 'o' | 'O' => some .octal
  | 'b' | 'B' => some .binary
  | _ => none

def Base.size : Base → Nat
  | .hexadecimal => 16
  | .octal => 8
  | .binary => 2

def Base.isDigit : Base → Char → Bool
  | .hexadecimal, c => c.isDigit || 'a' ≤ c && c ≤ 'f' || 'A' ≤ c && c ≤ 'F'
  | .octal, c => '0' ≤ c && c ≤ '7'
  | .binary, c => c == '0' || c == '1'

/-- A literal as it is written, with its value. -/
structure NumberLiteral where
  source : List Char
  value : Float

/-- The literal that `text` starts with, if it names its base. -/
def NumberLiteral.readBased? : (text : List Char) → Option NumberLiteral
  | '0' :: letter :: rest =>
      match Base.ofLetter? letter with
      | none => none
      | some base =>
          let digits := rest.takeWhile base.isDigit
          if digits.isEmpty then none
          else some ⟨'0' :: letter :: digits, Number.ofRatio false (ofDigits base.size digits) 1⟩
  | _ => none

/-- The point and the digits behind it, or nothing. -/
def NumberLiteral.fractionPart : (text : List Char) → List Char
  | '.' :: rest =>
      let digits := rest.takeWhile Char.isDigit
      if digits.isEmpty then [] else '.' :: digits
  | _ => []

def NumberLiteral.signPart : (text : List Char) → List Char
  | '+' :: _ => ['+']
  | '-' :: _ => ['-']
  | _ => []

/-- The exponent mark, the sign and the digits behind them, or nothing. -/
def NumberLiteral.exponentPart : (text : List Char) → List Char
  | mark :: rest =>
      if mark = 'e' ∨ mark = 'E' then
        let sign := signPart rest
        let digits := (rest.drop sign.length).takeWhile Char.isDigit
        if digits.isEmpty then [] else mark :: sign ++ digits
      else []
  | [] => []

/-- The number that an exponent part gives; nothing is zero. -/
def NumberLiteral.exponentValue : (part : List Char) → Int
  | _ :: '-' :: digits => -(ofDigits 10 digits : Int)
  | _ :: '+' :: digits => ofDigits 10 digits
  | _ :: digits => ofDigits 10 digits
  | [] => 0

/-- The decimal numeral that `text` starts with. -/
def NumberLiteral.readDecimal (text : List Char) : NumberLiteral :=
  let whole := text.takeWhile Char.isDigit
  let fraction := fractionPart (text.drop whole.length)
  let exponent := exponentPart (text.drop (whole.length + fraction.length))
  let places := fraction.drop 1
  let decimal : Decimal :=
    ⟨ofDigits 10 (whole ++ places), exponentValue exponent - places.length⟩
  ⟨whole ++ fraction ++ exponent, decimal.toFloat⟩

def NumberLiteral.read (text : List Char) : NumberLiteral :=
  (NumberLiteral.readBased? text).getD (NumberLiteral.readDecimal text)

end Glass
