import LispCalc.Binary64.Rounding

namespace LispCalc

-- Powers of natural numbers are those of the core library, whatever else is imported.
attribute [local instance (high)] instPowNat

/-- The number `± coefficient * 10 ^ exponent`; the sign of zero is kept. -/
structure Decimal where
  negative : Bool
  coefficient : Nat
  exponent : Int
deriving DecidableEq, Repr

namespace Decimal

/-- The nearest binary64 number. Above `10 ^ 400` every decimal is infinite, and one below
`2 ^ -1099` is zero, so the power of ten is only computed in between. -/
def toBinary64 (d : Decimal) : Binary64 :=
  if d.coefficient = 0 then .finite d.negative 0
  else if 400 < d.exponent then .infinity d.negative
  else if d.coefficient.log2 + 1100 + 3 * d.exponent < 0 then .finite d.negative 0
  else if 0 ≤ d.exponent then
    .ofRatio d.negative (d.coefficient * 10 ^ d.exponent.toNat * Binary64.unitsPerOne) 1
  else
    .ofRatio d.negative (d.coefficient * Binary64.unitsPerOne) (10 ^ (-d.exponent).toNat)

/-- Removes trailing zeros from a coefficient with `places` digits after the point, as far as those
digits go. Returns the coefficient and the places left. -/
def dropZeros : Nat → Nat → Nat × Nat
  | coefficient, 0 => (coefficient, 0)
  | coefficient, places + 1 =>
    if coefficient % 10 = 0 then dropZeros (coefficient / 10) places
    else (coefficient, places + 1)

theorem dropZeros_mul (coefficient places : Nat) :
    (dropZeros coefficient places).1 * 10 ^ places =
      coefficient * 10 ^ (dropZeros coefficient places).2 := by
  fun_induction dropZeros coefficient places with
  | case1 => rfl
  | case2 coefficient places h ih =>
    have hc : coefficient = coefficient / 10 * 10 := by omega
    rw [Nat.pow_succ, ← Nat.mul_assoc, ih, Nat.mul_right_comm, ← hc]
  | case3 => rfl

/-- The digits of `coefficient` with a point before the last `places` of them and at least one digit
before the point; no point when there are no places. -/
def pointed (coefficient places : Nat) : List Char :=
  let digits := Nat.toDigits 10 coefficient
  if places = 0 then digits
  else
    let padded := List.replicate (places + 1 - digits.length) '0' ++ digits
    padded.take (padded.length - places) ++ '.' :: padded.drop (padded.length - places)

/-- Positional notation, never an exponent: no zeros end the fraction, and a whole number has no
point. -/
def positional (d : Decimal) : List Char :=
  let magnitude :=
    if 0 ≤ d.exponent then pointed (d.coefficient * 10 ^ d.exponent.toNat) 0
    else
      let (coefficient, places) := dropZeros d.coefficient (-d.exponent).toNat
      pointed coefficient places
  if d.negative then '-' :: magnitude else magnitude

end Decimal

end LispCalc
