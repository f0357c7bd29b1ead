import LispCalc.Proofs.Binary64.Nearest
import LispCalc.Proofs.Decimal.Value

namespace LispCalc

-- Powers of natural numbers are those of the core library, whatever else is imported.
attribute [local instance (high)] instPowNat

theorem ten_zpow_pos (place : Int) : (0 : ℚ) < 10 ^ place :=
  zpow_pos (by norm_num) place

theorem ten_zpow_eq (place : Int) : (10 : ℚ) ^ place = 10 ^ place.toNat / 10 ^ (-place).toNat := by
  rw [← zpow_natCast, ← zpow_natCast, ← zpow_sub₀ (by norm_num)]
  congr 1
  omega

theorem ten_zpow_add (place : Int) (k : Nat) : (10 : ℚ) ^ (place + k) = 10 ^ k * 10 ^ place := by
  rw [zpow_add₀ (by norm_num), zpow_natCast, mul_comm]

theorem ten_zpow_eq_mul (place : Int) (k : Nat) : (10 : ℚ) ^ place = 10 ^ k * 10 ^ (place - k) := by
  rw [← ten_zpow_add, sub_add_cancel]

namespace Binary64

theorem abs_sub_le_abs_sub_iff (q v w : ℚ) :
    |q - v| ≤ |q - w| ↔ 0 ≤ (w - v) * (v + w - 2 * q) := by
  have hd : (q - w) * (q - w) - (q - v) * (q - v) = (w - v) * (v + w - 2 * q) := by ring
  rw [abs_le_iff_mul_self_le, ← sub_nonneg, hd]

/-- What is as near to `v` as to `w` at both ends is so in between, and not nearer to `w` than at
one end. -/
theorem exists_end_closer {q r q' : ℚ} (h : q ≤ r) (h' : r ≤ q') (v w : ℚ) :
    ∃ s, (s = q ∨ s = q') ∧ (|s - v| ≤ |s - w| → |r - v| ≤ |r - w|) ∧
      (|r - w| ≤ |r - v| → |s - w| ≤ |s - v|) := by
  -- By how much the squares of the two distances differ is linear in `r`.
  simp only [abs_sub_le_abs_sub_iff]
  rcases le_total v w with hvw | hvw
  · have hm := mul_le_mul_of_nonneg_left (by linarith : v + w - 2 * q' ≤ v + w - 2 * r)
      (sub_nonneg.mpr hvw)
    exact ⟨q', .inr rfl, fun _ => by linarith, fun _ => by linarith⟩
  · have hm := mul_le_mul_of_nonpos_left (by linarith : v + w - 2 * r ≤ v + w - 2 * q)
      (sub_nonpos.mpr hvw)
    exact ⟨q, .inl rfl, fun _ => by linarith, fun _ => by linarith⟩

namespace IsNearest

variable {q r q' : ℚ} {x : Binary64} {negative : Bool} {rank : Fin (2047 * 2 ^ (52 : Nat))}

/-- The values that are rounded to one finite number make an interval. -/
theorem between (hq : IsNearest q (.finite negative rank))
    (hq' : IsNearest q' (.finite negative rank)) (h : q ≤ r) (h' : r ≤ q') :
    IsNearest r (.finite negative rank) where
  isNaN_eq := rfl
  sign hr := by
    rcases lt_or_gt_of_ne hr with hlt | hgt
    · have hn : q < 0 := lt_of_le_of_lt h hlt
      rw [hq.sign (ne_of_lt hn), decide_eq_true hn, decide_eq_true hlt]
    · have hp : 0 < q' := lt_of_lt_of_le hgt h'
      rw [hq'.sign (ne_of_gt hp), decide_eq_false (not_lt.mpr hp.le),
        decide_eq_false (not_lt.mpr hgt.le)]
  isInfinite_iff := by
    refine iff_of_false Bool.false_ne_true fun hr => ?_
    rcases le_max_iff.mp (hr.trans (abs_le_max_abs_abs h h')) with ho | ho
    · exact Bool.false_ne_true (hq.isInfinite_iff.mpr ho)
    · exact Bool.false_ne_true (hq'.isInfinite_iff.mpr ho)
  nearest v hv y w hw := by
    obtain ⟨s, rfl | rfl, hs, -⟩ := exists_end_closer h h' v w
    · exact hs (hq.nearest v hv y w hw)
    · exact hs (hq'.nearest v hv y w hw)
  even v hv y w hw hne ht := by
    obtain ⟨s, rfl | rfl, -, hs⟩ := exists_end_closer h h' v w
    · exact hq.even v hv y w hw hne (le_antisymm (hq.nearest v hv y w hw) (hs ht.ge))
    · exact hq'.even v hv y w hw hne (le_antisymm (hq'.nearest v hv y w hw) (hs ht.ge))

theorem nonneg (h : IsNearest q (.finite false rank)) : 0 ≤ q := by
  by_cases hq : q = 0
  · exact hq.ge
  · exact not_lt.mp (of_decide_eq_false (h.sign hq).symm)

end IsNearest

theorem neg_involutive (x : Binary64) : x.neg.neg = x := by
  cases x with
  | nan => rfl
  | infinity negative | finite negative => cases negative <;> rfl

theorem value?_of_neg {x : Binary64} {v : ℚ} (h : x.neg.value? = some v) :
    x.value? = some (-v) := by
  cases x with
  | nan | infinity => cases h
  | finite negative rank =>
    cases h
    cases negative with
    | false => exact congrArg some (neg_neg _).symm
    | true => rfl

theorem abs_neg_sub (q v : ℚ) : |-q - v| = |q - -v| := by
  rw [← abs_neg, neg_sub', neg_neg]

theorem IsNearest.neg {q : ℚ} {x : Binary64} (h : IsNearest q x) : IsNearest (-q) x.neg := by
  have hy {y : Binary64} {w : ℚ} (hw : y.value? = some w) : y.neg.value? = some (-w) := by
    rw [← neg_involutive y] at hw
    exact value?_of_neg hw
  refine ⟨?_, fun hq => ?_, ?_, fun v hv y w hw => ?_, fun v hv y w hw hne ht => ?_⟩
  · rw [← h.isNaN_eq]
    cases x <;> rfl
  · have hz : q ≠ 0 := neg_ne_zero.mp hq
    have hd : decide (-q < 0) = !decide (q < 0) := by
      rw [← decide_not, decide_eq_decide, neg_lt_zero, not_lt]
      exact ⟨le_of_lt, fun hle => lt_of_le_of_ne hle hz.symm⟩
    rw [hd, ← h.sign hz]
    cases x with
    | nan => exact absurd h.isNaN_eq (by decide)
    | infinity | finite => rfl
  · rw [abs_neg, ← h.isInfinite_iff]
    cases x <;> rfl
  · rw [abs_neg_sub, abs_neg_sub]
    exact h.nearest _ (value?_of_neg hv) _ _ (hy hw)
  · rw [abs_neg_sub, abs_neg_sub] at ht
    have he := h.even _ (value?_of_neg hv) _ _ (hy hw) (neg_injective.ne hne) ht
    cases x <;> exact he

theorem isNearest_magnitude (rank : Fin (2047 * 2 ^ (52 : Nat))) :
    IsNearest (magnitude rank) (.finite false rank) := by
  have h := isNearest_ofRatio false (unitsOfRank rank) Nat.one_pos
  rwa [ofRatio_unitsOfRank, Nat.cast_one, one_mul] at h

theorem magnitude_succ_le (rank : Nat) :
    magnitude (rank + 1) ≤ 2 ^ (53 : Nat) * (magnitude (rank + 1) - magnitude rank) := by
  obtain ⟨shift, significand, h⟩ := exists_scaled rank
  have hu := unitsPerOne_pos_rat
  have hs : (significand : ℚ) + 1 ≤ 2 ^ (53 : Nat) := by
    exact_mod_cast h.significand_lt
  have hd : magnitude (rank + 1) - magnitude rank = 2 ^ shift / unitsPerOne := by
    rw [magnitude, magnitude, h.unitsOfRank_eq, h.unitsOfRank_succ]
    push_cast
    ring
  have hm : magnitude (rank + 1) = (significand + 1) * (2 ^ shift / unitsPerOne) := by
    rw [magnitude, h.unitsOfRank_succ]
    push_cast
    ring
  rw [hd, hm]
  exact mul_le_mul_of_nonneg_right hs (div_nonneg (by positivity) hu.le)

theorem magnitude_le_gap {rank rank' : Nat} (h : rank' ≠ rank) :
    magnitude rank ≤ 2 ^ (53 : Nat) * |magnitude rank - magnitude rank'| := by
  rcases Nat.lt_or_gt_of_ne h with hlt | hgt
  · obtain ⟨previous, rfl⟩ :=
      Nat.exists_eq_add_one_of_ne_zero (Nat.ne_of_gt (Nat.zero_lt_of_lt hlt))
    have hs := magnitude_succ_le previous
    have hle := magnitude_le (Nat.le_of_lt_succ hlt)
    have ha := le_abs_self (magnitude (previous + 1) - magnitude rank')
    linarith
  · have hs := magnitude_succ_le rank
    have hl := magnitude_lt_succ rank
    have hle := magnitude_le (Nat.succ_le_of_lt hgt)
    have ha := neg_le_abs (magnitude rank - magnitude rank')
    rw [Nat.succ_eq_add_one] at hle
    linarith

theorem isNearest_of_near {q : ℚ} {rank : Fin (2047 * 2 ^ (52 : Nat))}
    (h : 2 ^ (54 : Nat) * |q - magnitude rank| < magnitude rank) :
    IsNearest q (.finite false rank) := by
  have hn := neg_le_abs (q - magnitude rank)
  have hp := le_abs_self (q - magnitude rank)
  have hz := abs_nonneg (q - magnitude rank)
  have hq : 0 < q := by linarith
  have hfar {y : Binary64} {w : ℚ} (hw : y.value? = some w) (hne : w ≠ magnitude rank) :
      |q - magnitude rank| < |q - w| := by
    obtain ⟨negative, rank', -, rfl⟩ := value?_eq_some hw
    by_cases hr : rank'.val = rank.val
    · -- The number of the other sign, on the other side of zero.
      have hs : negative = true := by
        cases negative with
        | false => exact absurd (congrArg magnitude hr) hne
        | true => rfl
      have ha := le_abs_self (q - signedBy true (magnitude rank))
      rw [hs, hr]
      rw [signedBy, if_pos rfl] at ha ⊢
      linarith
    · have hg := magnitude_le_gap hr
      have ht := abs_sub_le (magnitude rank) q (magnitude rank')
      have hs := abs_sub_le_abs_sub_signedBy false negative hq.le (magnitude_nonneg rank')
      rw [signedBy, if_neg Bool.false_ne_true] at hs
      rw [abs_sub_comm (magnitude rank) q] at ht
      linarith
  refine ⟨rfl, fun _ => ?_, ?_, fun v hv y w hw => ?_, fun v hv y w hw hne ht => ?_⟩
  · exact (decide_eq_false (not_lt.mpr hq.le)).symm
  · refine iff_of_false Bool.false_ne_true (not_le.mpr ?_)
    have hs := magnitude_succ_le rank
    have hl := magnitude_lt_succ rank
    have hr : rank.val ≤ lastRank := Nat.le_sub_one_of_lt rank.isLt
    have hlast := magnitude_le hr
    have hlast' := magnitude_le (Nat.succ_le_succ hr)
    rw [Nat.succ_eq_add_one, Nat.succ_eq_add_one] at hlast'
    rw [abs_of_pos hq, overflow]
    linarith
  · cases hv
    by_cases hne : w = magnitude rank
    · rw [hne]
      rfl
    · exact (hfar hw hne).le
  · cases hv
    exact absurd ht (ne_of_lt (hfar hw hne))

end Binary64

namespace Decimal

open Binary64

/-- The value of a decimal; a negative exponent divides. -/
def value (d : Decimal) : ℚ :=
  signedBy d.negative (d.coefficient * 10 ^ d.exponent)

theorem value_eq_ratio (d : Decimal) :
    d.value = signedBy d.negative (d.numerator / d.denominator) := by
  rw [value, ten_zpow_eq, numerator, denominator, Nat.cast_mul, Nat.cast_pow, Nat.cast_pow,
    mul_div_assoc]
  rfl

theorem value_congr {d d' : Decimal} (hs : d.negative = d'.negative)
    (hv : d.numerator * d'.denominator = d'.numerator * d.denominator) : d.value = d'.value := by
  have hd : (d.denominator : ℚ) ≠ 0 := Nat.cast_ne_zero.mpr (Nat.ne_of_gt d.denominator_pos)
  have hd' : (d'.denominator : ℚ) ≠ 0 := Nat.cast_ne_zero.mpr (Nat.ne_of_gt d'.denominator_pos)
  rw [value_eq_ratio, value_eq_ratio, hs]
  congr 1
  rw [div_eq_div_iff hd hd']
  exact_mod_cast hv

theorem isNearest_toBinary64 (d : Decimal) : IsNearest d.value d.toBinary64 := by
  have h := isNearest_ofRatio d.negative (d.numerator * unitsPerOne) d.denominator_pos
  rw [toBinary64_eq_ofRatio, value_eq_ratio]
  rwa [Nat.cast_mul, mul_div_mul_right _ _ (ne_of_gt unitsPerOne_pos_rat)] at h

theorem value_of_not_negative {d : Decimal} (h : d.negative = false) :
    d.value = d.coefficient * 10 ^ d.exponent := by
  rw [value, h, signedBy, if_neg Bool.false_ne_true]

/-- A decimal is read as a magnitude exactly when that magnitude is the nearest to its value. -/
theorem readsAs_iff {d : Decimal} (hd : d.negative = false) {rank : Fin (2047 * 2 ^ (52 : Nat))} :
    ReadsAs d rank ↔ IsNearest d.value (.finite false rank) := by
  constructor
  · intro h
    rw [← show d.toBinary64 = .finite false rank from h]
    exact d.isNearest_toBinary64
  · intro h
    by_cases hv : d.value = 0
    · -- Zero is nearest to zero only, and the sign of the zero that is read is that of the decimal.
      have hn := h.nearest _ rfl (.finite false 0) _ rfl
      have hz : rank = 0 := by
        rw [hv, abs_sub_comm, abs_sub_comm 0] at hn
        by_contra hr
        have hp := magnitude_lt (Nat.pos_of_ne_zero fun h => hr (Fin.ext h))
        simp only [signedBy, Bool.false_eq_true, if_false, sub_zero, Fin.val_zero, magnitude_zero,
          abs_zero, abs_nonpos_iff] at hn
        rw [hn, magnitude_zero] at hp
        exact lt_irrefl _ hp
      have hc : d.coefficient = 0 := by
        rw [value_of_not_negative hd] at hv
        exact_mod_cast (mul_eq_zero.mp hv).resolve_right (ne_of_gt (ten_zpow_pos _))
      rw [ReadsAs, toBinary64, if_pos hc, hd, hz]
    · exact d.isNearest_toBinary64.unique hv h

end Decimal

end LispCalc
