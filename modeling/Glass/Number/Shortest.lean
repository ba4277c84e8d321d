import Glass.Number.Decimal

/-!
The fewest decimal digits that read back as a given double. For one digit, then two, and so on, the
two decimals next to the value on that grid are tried, the nearer one first and the even one first
when they are equally near. Seventeen digits always suffice; the exact expansion closes the search,
so that what is found reads back whatever the search did.
-/

namespace Glass.Number

/-- The exact value of a finite magnitude as a decimal. -/
def exactDecimal (x : Float) : Decimal := ⟨units x * Nat.pow 5 1074, -1074⟩

/-- The largest `k` with `10 ^ k` at most the magnitude of `x`, for a finite `x` that is not zero. -/
def decimalOrder (x : Float) : Int :=
  (Nat.toDigits 10 (units x * Nat.pow 10 400 / unitsPerOne)).length - 401

/-- The decimals next to the magnitude of `x` among the multiples of `10 ^ exponent`, the one to be
preferred first. -/
def neighbours (x : Float) (exponent : Int) : List Decimal :=
  let num := units x * Nat.pow 10 (-exponent).toNat
  let den := unitsPerOne * Nat.pow 10 exponent.toNat
  let below := num / den
  let preferred := roundDiv num den
  [⟨preferred, exponent⟩, ⟨2 * below + 1 - preferred, exponent⟩]

/-- The first hit on the grids from `exponent` down, `count` of them. -/
def searchGrids (x : Float) : (count : Nat) → (exponent : Int) → Decimal
  | 0, _ => exactDecimal x
  | count + 1, exponent =>
      ((neighbours x exponent).find? fun d => d.nearestBits == x.toBits.toNat % signBit).getD
        (searchGrids x count (exponent - 1))

/-- The shortest decimal that reads back as the magnitude of a finite double, and of several the
nearest one. -/
def shortestDecimal (x : Float) : Decimal :=
  if units x = 0 then ⟨0, 0⟩ else searchGrids x 17 (decimalOrder x)

end Glass.Number
