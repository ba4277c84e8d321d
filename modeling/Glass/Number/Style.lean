import Glass.Text.Blank
import Glass.Number.Shortest

/-!
Number text. A `NumberStyle` fixes what the digits leave open: where positional notation ends,
whether an integer keeps its point, and the words for what is not finite.
-/

namespace Glass

/-- Significant digits with no zero at the end, and how many of them stand before the point. -/
structure Numeral where
  digits : List Char
  point : Int
  deriving DecidableEq, Repr

def Numeral.ofDecimal (d : Decimal) : Numeral :=
  let digits := Nat.toDigits 10 d.digits
  ⟨trimEnd (· == '0') digits, digits.length + d.exponent⟩

/-- The digits before the point, at least one. -/
def Numeral.whole (n : Numeral) : List Char :=
  if n.point ≤ 0 then ['0']
  else n.digits.take n.point.toNat ++ List.replicate (n.point.toNat - n.digits.length) '0'

/-- The digits behind the point, the last of them not zero. -/
def Numeral.fraction (n : Numeral) : List Char :=
  if n.point ≤ 0 then List.replicate (-n.point).toNat '0' ++ n.digits
  else n.digits.drop n.point.toNat

structure NumberStyle where
  /-- Whether a numeral whose first digit counts for `10 ^ order` is written without an exponent. -/
  isPositional : (order : Int) → Bool
  /-- What stands behind an integer written without an exponent. -/
  integerEnd : List Char
  nanWord : String
  infinityWord : String

/-- The sign and at least two digits. -/
def exponentText (order : Int) : List Char :=
  let digits := Nat.toDigits 10 order.natAbs
  (if order < 0 then '-' else '+') :: (if digits.length < 2 then '0' :: digits else digits)

def NumberStyle.positional (style : NumberStyle) (n : Numeral) : List Char :=
  n.whole ++ if n.fraction.isEmpty then style.integerEnd else '.' :: n.fraction

def scientific (n : Numeral) : List Char :=
  let rest := n.digits.drop 1
  n.digits.take 1 ++ (if rest.isEmpty then [] else '.' :: rest) ++ 'e' :: exponentText (n.point - 1)

def NumberStyle.magnitude (style : NumberStyle) (n : Numeral) : List Char :=
  if style.isPositional (n.point - 1) then style.positional n else scientific n

def NumberStyle.text (style : NumberStyle) (x : Float) : String :=
  if x.isNaN then style.nanWord
  else
    let sign := if Number.isNegative x then "-" else ""
    if x.isInf then sign ++ style.infinityWord
    else sign ++ String.ofList (style.magnitude (.ofDecimal (Number.shortestDecimal x)))

/-- Values are printed without exponents, and integers without a point. -/
def NumberStyle.printed : NumberStyle where
  isPositional _ := true
  integerEnd := []
  nanWord := "NaN"
  infinityWord := "inf"

/-- Logs write exponents below `-4` and from `16` on, and an integer keeps its point. -/
def NumberStyle.logged : NumberStyle where
  isPositional order := -4 ≤ order && order < 16
  integerEnd := ['.', '0']
  nanWord := "nan"
  infinityWord := "inf"

end Glass
