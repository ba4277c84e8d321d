/-!
Doubles as exact fractions. The least positive double is `2 ^ (-1074)`, and every finite magnitude is
`significand * 2 ^ exponent` of that unit. Written so, the bits below the sign are
`exponent * 2 ^ 52 + significand` for subnormal and normal numbers alike, and one more than the
largest finite pattern is infinity. Rounding to nearest is therefore one rounded division.
-/

namespace Glass

/-- `n / d` rounded to the nearest integer, a half to the even one. -/
def roundDiv (n d : Nat) : Nat :=
  let q := n / d
  let r := n % d
  if 2 * r < d ∨ 2 * r = d ∧ q % 2 = 0 then q else q + 1

namespace Number

/-- How many units there are in one. -/
def unitsPerOne : Nat := Nat.pow 2 1074

/-- The least significand of a normal number, and the step of the exponent in the bits. -/
def hiddenBit : Nat := Nat.pow 2 52

def signBit : Nat := Nat.pow 2 63

def infinityBits : Nat := 2047 * hiddenBit

/-- The bits below the sign of the double nearest to `num / den`. -/
def nearestBits (num den : Nat) : Nat :=
  let units := num * unitsPerOne
  let exponent := (units / den).log2 - 52
  min (exponent * hiddenBit + roundDiv units (den * Nat.pow 2 exponent)) infinityBits

def ofSignAndBits (negative : Bool) (bits : Nat) : Float :=
  Float.ofBits (UInt64.ofNat (if negative then signBit + bits else bits))

/-- The double nearest to `num / den`, or to its negation. -/
def ofRatio (negative : Bool) (num den : Nat) : Float :=
  ofSignAndBits negative (nearestBits num den)

def isNegative (x : Float) : Bool := signBit ≤ x.toBits.toNat

def isFinite (x : Float) : Bool := !x.isNaN && !x.isInf

/-- The magnitude of a finite double, counted in units. -/
def units (x : Float) : Nat :=
  let bits := x.toBits.toNat
  let biased := bits / hiddenBit % 2048
  let fraction := bits % hiddenBit
  if biased = 0 then fraction else (fraction + hiddenBit) * Nat.pow 2 (biased - 1)

/-- The magnitude of a finite double without its fraction. -/
def wholePart (x : Float) : Nat := units x / unitsPerOne

def isOddInteger (x : Float) : Bool :=
  isFinite x && units x % (2 * unitsPerOne) == unitsPerOne

/-- The double nearest to a whole number, or an infinity if that is past all doubles. -/
def ofWhole (n : Int) : Float := ofRatio (n < 0) n.natAbs 1

/-- Whether a double is exactly the given whole number. -/
def isWhole (x : Float) (n : Int) : Bool :=
  isFinite x && units x == n.natAbs * unitsPerOne && (isNegative x == decide (n < 0) || n == 0)

def notANumber : Float := 0.0 / 0.0

/-- The exact remainder of a truncated division. It has the sign of the dividend, a zero included. -/
def remainder (x y : Float) : Float :=
  if !isFinite x || y.isNaN || units y = 0 then notANumber
  else if y.isInf then x
  else ofRatio (isNegative x) (units x % units y) unitsPerOne

end Number

end Glass
