import LispCalc.Proofs.Binary64.Nearest
import Mathlib.Data.Rat.Floor

namespace LispCalc

def towardZero (q : ℚ) : Int :=
  if q < 0 then ⌈q⌉ else ⌊q⌋

theorem towardZero_of_nonneg {q : ℚ} (h : 0 ≤ q) : towardZero q = ⌊q⌋ :=
  if_neg (not_lt.mpr h)

theorem towardZero_neg (q : ℚ) : towardZero (-q) = -towardZero q := by
  rcases lt_trichotomy q 0 with h | rfl | h
  · rw [towardZero_of_nonneg (neg_nonneg.mpr h.le), towardZero, if_pos h, Int.floor_neg]
  · rw [neg_zero, towardZero_of_nonneg le_rfl, Int.floor_zero, neg_zero]
  · rw [towardZero_of_nonneg h.le, towardZero, if_pos (neg_lt_zero.mpr h), Int.ceil_neg]

theorem towardZero_eq_zero_iff (q : ℚ) : towardZero q = 0 ↔ |q| < 1 := by
  rw [abs_lt]
  by_cases h : q < 0
  · rw [towardZero, if_pos h, Int.ceil_eq_zero_iff, Set.mem_Ioc]
    constructor
    · rintro ⟨hl, -⟩
      exact ⟨hl, h.trans one_pos⟩
    · rintro ⟨hl, -⟩
      exact ⟨hl, h.le⟩
  · have hq := not_lt.mp h
    rw [towardZero_of_nonneg hq, Int.floor_eq_zero_iff, Set.mem_Ico]
    constructor
    · rintro ⟨-, hu⟩
      exact ⟨neg_one_lt_zero.trans_le hq, hu⟩
    · rintro ⟨-, hu⟩
      exact ⟨hq, hu⟩

def clamped (n : Int) : Int :=
  max (-2 ^ 63) (min n (2 ^ 63 - 1))

theorem clamped_eq_zero_iff (n : Int) : clamped n = 0 ↔ n = 0 := by
  rw [clamped]
  omega

theorem toInt_ofIntClamp_eq (n : Int) : (Int64.ofIntClamp n).toInt = clamped n := by
  have hl : Int64.minValue.toInt = -2 ^ 63 := rfl
  have hu : Int64.maxValue.toInt = 2 ^ 63 - 1 := rfl
  rw [clamped, Int64.ofIntClamp]
  split
  · split
    · rw [Int64.toInt_ofIntLE]
      omega
    · rw [hu]
      omega
  · rw [hl]
    omega

namespace Binary64

/-- The whole part toward zero, clamped to the integers that fit 64 bits; NaN counts as zero. -/
def truncated : Binary64 → Int
  | .nan => 0
  | .infinity negative => if negative then -2 ^ 63 else 2 ^ 63 - 1
  | .finite negative rank => clamped (towardZero (signedBy negative (magnitude rank)))

theorem towardZero_magnitude (rank : Nat) :
    towardZero (magnitude rank) = (unitsOfRank rank / unitsPerOne : Nat) := by
  rw [towardZero_of_nonneg (magnitude_nonneg rank), magnitude, Rat.floor_natCast_div_natCast]
  exact (Int.natCast_div _ _).symm

theorem towardZero_signedBy (negative : Bool) (rank : Nat) :
    towardZero (signedBy negative (magnitude rank)) =
      signed negative (unitsOfRank rank / unitsPerOne) := by
  cases negative with
  | false => exact towardZero_magnitude rank
  | true =>
    rw [signedBy, if_pos rfl, towardZero_neg, towardZero_magnitude]
    rfl

theorem toInt_toInt64_eq (x : Binary64) : x.toInt64.toInt = x.truncated := by
  cases x with
  | nan => rfl
  | infinity negative => cases negative <;> rfl
  | finite negative rank =>
    rw [toInt64, toInt_ofIntClamp_eq, ← towardZero_signedBy]
    rfl

theorem truncated_eq_zero_iff (x : Binary64) :
    x.truncated = 0 ↔ x.isNaN ∨ ∃ v, x.value? = some v ∧ |v| < 1 := by
  cases x with
  | nan => exact ⟨fun _ => .inl rfl, fun _ => rfl⟩
  | infinity negative =>
    constructor
    · intro h
      cases negative <;> cases h
    · rintro (h | ⟨v, h, -⟩)
      · cases h
      · cases h
  | finite negative rank =>
    rw [truncated, clamped_eq_zero_iff, towardZero_eq_zero_iff]
    constructor
    · intro h
      exact .inr ⟨_, rfl, h⟩
    · rintro (h | ⟨v, h, hv⟩)
      · cases h
      · cases h
        exact hv

end Binary64

end LispCalc
