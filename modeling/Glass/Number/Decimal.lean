import Glass.Number.Binary

/-!
Decimal numerals and the double each of them denotes. Exponents of any size are read: a numeral far
outside the range of the doubles is settled by its order of magnitude alone.
-/

namespace Glass

/-- The number `digits * 10 ^ exponent`. -/
structure Decimal where
  digits : Nat
  exponent : Int
  deriving DecidableEq, Repr

/-- The bits below the sign of the nearest double. -/
def Decimal.nearestBits (d : Decimal) : Nat :=
  if d.digits = 0 then 0
  else if 310 < d.exponent then Number.infinityBits
  else if d.exponent + d.digits.log2 + 1 < -330 then 0
  else if 0 ≤ d.exponent then Number.nearestBits (d.digits * Nat.pow 10 d.exponent.toNat) 1
  else Number.nearestBits d.digits (Nat.pow 10 (-d.exponent).toNat)

/-- The nearest double, a half going to the even neighbour. -/
def Decimal.toFloat (d : Decimal) : Float :=
  Number.ofSignAndBits false d.nearestBits

/-- What a digit of any base up to sixteen stands for. -/
def digitValue (c : Char) : Nat :=
  if c.isDigit then c.toNat - '0'.toNat
  else if 'a' ≤ c && c ≤ 'f' then c.toNat - 'a'.toNat + 10
  else if 'A' ≤ c && c ≤ 'F' then c.toNat - 'A'.toNat + 10
  else 0

/-- The number a row of digits spells in the given base. -/
def ofDigits (base : Nat) (digits : List Char) : Nat :=
  digits.foldl (fun n c => base * n + digitValue c) 0

end Glass
