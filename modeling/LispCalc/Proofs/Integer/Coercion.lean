import LispCalc.Proofs.Binary64.Truncation
import LispCalc.Proofs.Integer.Operators
import Mathlib.Data.Nat.Cast.Field

namespace LispCalc

-- Powers of natural numbers are those of the core library, whatever else is imported.
attribute [local instance (high)] instPowNat

theorem towardZero_mono {q r : ℚ} (h : q ≤ r) : towardZero q ≤ towardZero r := by
  by_cases hr : r < 0
  · rw [towardZero, towardZero, if_pos hr, if_pos (lt_of_le_of_lt h hr)]
    exact Int.ceil_le_ceil h
  · rw [towardZero_of_nonneg (not_lt.mp hr)]
    by_cases hq : q < 0
    · rw [towardZero, if_pos hq]
      exact (Int.ceil_le.mpr (by exact_mod_cast hq.le)).trans (Int.floor_nonneg.mpr (not_lt.mp hr))
    · rw [towardZero_of_nonneg (not_lt.mp hq)]
      exact Int.floor_le_floor h

theorem clamped_mono {m n : Int} (h : m ≤ n) : clamped m ≤ clamped n :=
  max_le_max_left _ (min_le_min_right _ h)

theorem clamped_bounds (n : Int) : -2 ^ 63 ≤ clamped n ∧ clamped n ≤ 2 ^ 63 - 1 := by
  rw [clamped]
  omega

namespace Binary64

/-- The order of the numbers: the infinite ones are the least and the greatest, and NaN has no
place in it. -/
inductive AtMost : Binary64 → Binary64 → Prop
  | least {y : Binary64} (hy : y ≠ .nan) : AtMost (.infinity true) y
  | greatest {x : Binary64} (hx : x ≠ .nan) : AtMost x (.infinity false)
  | finite {x y : Binary64} {v w : ℚ} (hx : x.value? = some v) (hy : y.value? = some w)
    (h : v ≤ w) : AtMost x y

theorem truncated_bounds (x : Binary64) : -2 ^ 63 ≤ x.truncated ∧ x.truncated ≤ 2 ^ 63 - 1 := by
  cases x with
  | nan => exact ⟨by decide, by decide⟩
  | infinity negative => cases negative <;> exact ⟨by decide, by decide⟩
  | finite negative rank => exact clamped_bounds _

theorem truncated_of_value? {x : Binary64} {v : ℚ} (h : x.value? = some v) :
    x.truncated = clamped (towardZero v) := by
  obtain ⟨negative, rank, rfl, rfl⟩ := value?_eq_some h
  rfl

theorem truncated_mono {x y : Binary64} (h : x.AtMost y) : x.truncated ≤ y.truncated := by
  cases h with
  | least => exact y.truncated_bounds.1
  | greatest => exact x.truncated_bounds.2
  | finite hx hy h =>
    rw [truncated_of_value? hx, truncated_of_value? hy]
    exact clamped_mono (towardZero_mono h)

theorem exists_value?_whole (negative : Bool) (rank : Fin (2047 * 2 ^ (52 : Nat))) :
    ∃ y : Binary64, y.value? = some (towardZero (signedBy negative (magnitude rank)) : ℚ) := by
  rw [towardZero_signedBy]
  by_cases hs : unitsOfRank rank / unitsPerOne ≤ 2 ^ (53 : Nat)
  · apply exists_value?_eq
    cases negative with
    | false => exact hs
    | true => rwa [signed, if_pos rfl, Int.natAbs_neg]
  · refine ⟨.finite negative rank, ?_⟩
    obtain ⟨shift, significand, h⟩ := exists_scaled rank
    have hu := h.unitsOfRank_eq
    have hshift : unitPlaces ≤ shift := by
      rw [← Nat.not_lt]
      intro hlt
      apply hs
      have hb : significand * 2 ^ shift < 2 ^ (53 : Nat) * unitsPerOne :=
        Nat.lt_of_lt_of_le (Nat.mul_lt_mul_of_pos_right h.significand_lt (Nat.two_pow_pos shift))
          (Nat.mul_le_mul_left _ (Nat.pow_le_pow_right (by decide) hlt.le))
      rw [hu]
      exact ((Nat.div_lt_iff_lt_mul unitsPerOne_pos).mpr hb).le
    have hd : unitsPerOne ∣ unitsOfRank rank := by
      rw [hu]
      exact Dvd.dvd.mul_left (pow_dvd_pow 2 hshift) significand
    rw [cast_signed, Nat.cast_div hd (ne_of_gt unitsPerOne_pos_rat)]
    rfl

theorem magnitude_eq {rank n : Nat} (h : unitsOfRank rank = n * unitsPerOne) :
    magnitude rank = n := by
  rw [magnitude, h, Nat.cast_mul, mul_div_cancel_right₀ _ (ne_of_gt unitsPerOne_pos_rat)]

theorem exists_rank_before_power :
    ∃ rank, rank + 1 < 2047 * 2 ^ (52 : Nat) ∧
      magnitude rank = (2 ^ (63 : Nat) - 2 ^ (10 : Nat) : Nat) ∧
      magnitude (rank + 1) = (2 ^ (63 : Nat) : Nat) := by
  have hu := unitPlaces_eq
  obtain ⟨rank, hr⟩ : ∃ rank, rank = (10 + unitPlaces) * 2 ^ (52 : Nat) + (2 ^ (53 : Nat) - 1) :=
    ⟨_, rfl⟩
  have h : Scaled rank (10 + unitPlaces) (2 ^ (53 : Nat) - 1) := ⟨hr, by decide, .inr (by decide)⟩
  refine ⟨rank, by omega, magnitude_eq ?_, magnitude_eq ?_⟩
  · rw [h.unitsOfRank_eq, Nat.pow_add, ← Nat.mul_assoc]
    rfl
  · rw [h.unitsOfRank_succ, Nat.pow_add, ← Nat.mul_assoc]
    rfl

/-- The greatest integer is rounded up, out of range, and cut back. -/
theorem truncated_ofInt_greatest : (ofInt (2 ^ 63 - 1)).truncated = 2 ^ 63 - 1 := by
  obtain ⟨rank, hlt, hb, hp⟩ := exists_rank_before_power
  have hn := isNearest_ofInt (2 ^ 63 - 1)
  generalize ofInt (2 ^ 63 - 1) = x at hn
  have hs : x.isNegative = false := by
    rw [hn.sign (by norm_num)]
    norm_num
  cases x with
  | nan => exact absurd hn.isNaN_eq (by decide)
  | infinity negative =>
    cases hs
    rfl
  | finite negative rank' =>
    cases hs
    have hd : |((2 ^ 63 - 1 : Int) : ℚ) - magnitude rank'| ≤
        |((2 ^ 63 - 1 : Int) : ℚ) - magnitude (rank + 1)| :=
      hn.nearest _ rfl (.finite false ⟨rank + 1, hlt⟩) _ rfl
    have hr : rank < rank'.val := by
      rw [← Nat.not_le]
      intro hle
      have hm := magnitude_le hle
      rw [hb] at hm
      rw [hp] at hd
      norm_num at hm hd
      have hl := (le_abs_self _).trans hd
      linarith
    have hm := magnitude_le hr
    rw [Nat.succ_eq_add_one, hp] at hm
    have hf : 2 ^ 63 ≤ ⌊magnitude rank'⌋ := Int.le_floor.mpr (by exact_mod_cast hm)
    rw [truncated_of_value? rfl, signedBy, if_neg Bool.false_ne_true,
      towardZero_of_nonneg (magnitude_nonneg _), clamped]
    omega

theorem truncated_ofInt {n : Int} (hy : ∃ y : Binary64, y.value? = some (n : ℚ))
    (hn : clamped n = n) : (ofInt n).truncated = n := by
  obtain ⟨y, hy⟩ := hy
  have hw : towardZero (n : ℚ) = n := by
    rw [towardZero, Int.ceil_intCast, Int.floor_intCast, ite_self]
  rw [truncated_of_value? ((isNearest_ofInt n).value?_eq hy), hw, hn]

theorem truncated_ofInt_least : (ofInt (-2 ^ 63)).truncated = -2 ^ 63 := by
  obtain ⟨rank, hlt, -, hp⟩ := exists_rank_before_power
  refine truncated_ofInt ⟨.finite true ⟨rank + 1, hlt⟩, ?_⟩ (by decide)
  rw [value?, signedBy, if_pos rfl, hp]
  norm_num

theorem clamped_cases (n : Int) :
    clamped n = n ∨ clamped n = -2 ^ 63 ∨ clamped n = 2 ^ 63 - 1 := by
  rw [clamped]
  omega

theorem truncated_ofInt_truncated (x : Binary64) : (ofInt x.truncated).truncated = x.truncated := by
  cases x with
  | nan => exact truncated_ofInt (exists_value?_eq (by decide)) (by decide)
  | infinity negative =>
    cases negative with
    | false => exact truncated_ofInt_greatest
    | true => exact truncated_ofInt_least
  | finite negative rank =>
    have hw := exists_value?_whole negative rank
    rw [truncated]
    generalize towardZero (signedBy negative (magnitude rank)) = n at hw
    rcases clamped_cases n with h | h | h
    · rw [h]
      exact truncated_ofInt hw h
    · rw [h]
      exact truncated_ofInt_least
    · rw [h]
      exact truncated_ofInt_greatest

theorem toInt64_ofInt_toInt64 (x : Binary64) : (ofInt x.toInt64.toInt).toInt64 = x.toInt64 := by
  rw [← Int64.toInt_inj, toInt_toInt64_eq, toInt_toInt64_eq]
  exact truncated_ofInt_truncated x

end Binary64

open Binary64

/-- A number counts as its whole part toward zero, kept to 64 bits, and NaN as zero. Greater
numbers count as greater integers, and the number nearest to an operand's integer counts as the
same one, so that an integer operator cannot tell the two apart. -/
theorem integer_coercion (x y : Binary64) :
    let m := x.toInt64
    let n := y.toInt64
    (∀ op, (Value.number x).asInteger op = .ok m) ∧
    m.toInt = x.truncated ∧
    (x.AtMost y → m ≤ n) ∧
    IsNearest m.toInt (ofInt m.toInt) ∧
    (∀ op, (Value.number (ofInt m.toInt)).asInteger op = .ok m) ∧
    ∀ op : IntegerOperator, op.operator.apply [.number x, .number y] =
      op.operator.apply [.number (ofInt m.toInt), .number (ofInt n.toInt)] := by
  intro m n
  have hm : m.toInt = x.truncated := toInt_toInt64_eq x
  have hn : n.toInt = y.truncated := toInt_toInt64_eq y
  refine ⟨fun _ => rfl, hm, ?_, isNearest_ofInt _, ?_, ?_⟩
  · intro h
    rw [Int64.le_iff_toInt_le, hm, hn]
    exact truncated_mono h
  · intro op
    exact congrArg Except.ok (toInt64_ofInt_toInt64 x)
  · intro op
    rw [op.apply_eq, op.apply_eq, toInt64_ofInt_toInt64, toInt64_ofInt_toInt64]

end LispCalc
