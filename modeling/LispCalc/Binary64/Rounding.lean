import LispCalc.Binary64

namespace LispCalc

-- Powers of natural numbers are those of the core library, whatever else is imported.
attribute [local instance (high)] instPowNat

/-- The whole number nearest to `n / d`, with a half going to the even neighbour. -/
def roundHalfEven (n d : Nat) : Nat :=
  let floor := n / d
  let rest := n % d
  if 2 * rest < d then floor
  else if d < 2 * rest then floor + 1
  else floor + floor % 2

theorem roundHalfEven_mul (n d : Nat) (hd : 0 < d) : roundHalfEven (n * d) d = n := by
  simp only [roundHalfEven, Nat.mul_div_cancel n hd, Nat.mul_mod_left]
  exact if_pos (by omega)

namespace Binary64

/-- The number of the given sign nearest to `num / den` units. A quotient of `b` bits is rounded
to a multiple of `2 ^ (b - 53)`; a significand that rounds up to `2 ^ 53` carries into the rank's
exponent part, where it belongs, and what rounds past the last rank is infinite. -/
def ofRatio (negative : Bool) (num den : Nat) : Binary64 :=
  let shift := (num / den).log2 - 52
  let rank := shift * 2 ^ (52 : Nat) + roundHalfEven num (den * 2 ^ shift)
  if h : rank < 2047 * 2 ^ (52 : Nat) then .finite negative ⟨rank, h⟩ else .infinity negative

def ofUnits (units : Int) : Binary64 :=
  ofRatio (decide (units < 0)) units.natAbs 1

def ofInt (n : Int) : Binary64 :=
  ofUnits (n * unitsPerOne)

/-- The whole part toward zero, clamped to the signed 64-bit range; NaN gives zero. -/
def toInt64 : Binary64 → Int64
  | .nan => 0
  | .infinity negative => if negative then Int64.minValue else Int64.maxValue
  | .finite negative rank =>
    Int64.ofIntClamp (signed negative (unitsOfRank rank / unitsPerOne))

theorem ofRatio_zero (negative : Bool) (den : Nat) :
    ofRatio negative 0 den = .finite negative 0 := by
  have hr : roundHalfEven 0 (den * 2 ^ (0 : Nat)) = 0 := by
    simp [roundHalfEven]
  simp only [ofRatio, Nat.zero_div, Nat.log2_zero, Nat.zero_sub, hr]
  rfl

end Binary64

end LispCalc
