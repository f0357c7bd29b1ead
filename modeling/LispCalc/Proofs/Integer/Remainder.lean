import LispCalc.Proofs.Binary64.Truncation
import LispCalc.Proofs.Integer.Operators

namespace LispCalc

/-- What is left of `a` when multiples of `b` are taken from it toward zero. -/
structure IsRemainder (a b r : Int) : Prop where
  multiple : ∃ q, a = b * q + r
  lt : |r| < |b|
  sign : r = 0 ∨ r.sign = a.sign

theorem isRemainder_tmod (a : Int) {b : Int} (hb : b ≠ 0) : IsRemainder a b (a.tmod b) := by
  refine ⟨⟨a.tdiv b, (Int.mul_tdiv_add_tmod a b).symm⟩, ?_, ?_⟩
  · rw [Int.abs_eq_natAbs, Int.abs_eq_natAbs, Int.natAbs_tmod]
    exact Int.ofNat_lt.mpr (Nat.mod_lt _ (Int.natAbs_pos.mpr hb))
  · have hs := Int.sign_tmod a b
    split at hs
    · exact .inl (Int.sign_eq_zero_iff_zero.mp hs)
    · exact .inr hs

theorem abs_sub_lt_of_sign {a b r r' : Int} (hr : |r| < b) (hr' : |r'| < b)
    (hs : r = 0 ∨ r.sign = a.sign) (hs' : r' = 0 ∨ r'.sign = a.sign) : |r - r'| < b := by
  rw [abs_lt] at *
  rcases lt_trichotomy a 0 with h | rfl | h
  · rw [Int.sign_eq_neg_one_of_neg h] at hs hs'
    rw [Int.sign_eq_neg_one_iff_neg] at hs hs'
    omega
  · rw [Int.sign_zero, Int.sign_eq_zero_iff_zero] at hs hs'
    omega
  · rw [Int.sign_eq_one_of_pos h] at hs hs'
    rw [Int.sign_eq_one_iff_pos] at hs hs'
    omega

theorem IsRemainder.unique {a b r r' : Int} (h : IsRemainder a b r) (h' : IsRemainder a b r') :
    r = r' := by
  obtain ⟨q, hq⟩ := h.multiple
  obtain ⟨q', hq'⟩ := h'.multiple
  have hd : |b| ∣ r - r' := by
    rw [abs_dvd]
    refine ⟨q' - q, ?_⟩
    rw [mul_sub]
    omega
  exact sub_eq_zero.mp
    (Int.eq_zero_of_abs_lt_dvd hd (abs_sub_lt_of_sign h.lt h'.lt h.sign h'.sign))

namespace Binary64

theorem ofInt_zero : ofInt 0 = zero := by
  rw [ofInt, Int.zero_mul, ofUnits]
  exact ofRatio_zero false 1

end Binary64

namespace Operator

open Binary64

/-- `mod` fails where the divisor counts as zero, as NaN and everything between minus one and one
does, and otherwise gives the remainder of the whole parts, rounded once. A divisor of minus one
leaves nothing of any dividend, the least integer included. -/
theorem mod_by_any_divisor (x y : Binary64) :
    let a := x.toInt64.toInt
    let b := y.toInt64.toInt
    (a = x.truncated ∧ b = y.truncated) ∧
    (b = 0 ↔ y.isNaN ∨ ∃ v, y.value? = some v ∧ |v| < 1) ∧
    (b = 0 → mod.apply [.number x, .number y] = .error (.divisionByZero mod.name)) ∧
    (b ≠ 0 → ∃ r, IsRemainder a b r ∧ (∀ r', IsRemainder a b r' → r' = r) ∧
      IsNearest r (ofInt r) ∧ mod.apply [.number x, .number y] = .ok (.number (ofInt r))) ∧
    (b = -1 → mod.apply [.number x, .number y] = .ok (.number zero)) := by
  intro a b
  have ha : a = x.truncated := toInt_toInt64_eq x
  have hb : b = y.truncated := toInt_toInt64_eq y
  have hm := IntegerOperator.mod.apply_eq x y
  rw [IntegerOperator.onIntegers] at hm
  refine ⟨⟨ha, hb⟩, ?_, ?_, ?_, ?_⟩
  · rw [hb]
    exact truncated_eq_zero_iff y
  · intro h
    rw [if_pos h] at hm
    exact hm
  · intro h
    rw [if_neg h] at hm
    have hr := isRemainder_tmod a h
    exact ⟨a.tmod b, hr, fun r' hr' => hr'.unique hr, isNearest_ofInt _, hm⟩
  · intro h
    have hz : a.tmod b = 0 := by rw [h, Int.tmod_neg, Int.tmod_one]
    rw [if_neg (show ¬ b = 0 by omega)] at hm
    have hr : mod.apply [.number x, .number y] = .ok (.number (ofInt (a.tmod b))) := hm
    rw [hr, hz, ofInt_zero]

theorem mod_by_any_divisor_least :
    mod.apply [.number (ofInt (-7)), .number (ofInt 3)] = .ok (.number (ofInt (-1))) ∧
    (infinity true).toInt64.toInt = -2 ^ 63 ∧
    mod.apply [.number (.infinity true), .number (ofInt (-1))] = .ok (.number zero) ∧
    mod.apply [.number (.infinity true), .number .nan] = .error (.divisionByZero mod.name) := by
  have hv (n : Int) (hn : n.natAbs ≤ 7) : (ofInt n).toInt64.toInt = n := by
    apply toInt_toInt64 (value?_ofInt (Nat.le_trans hn (by decide)))
    constructor <;> omega
  refine ⟨?_, rfl, ?_, ?_⟩
  · obtain ⟨-, -, -, h, -⟩ := mod_by_any_divisor (ofInt (-7)) (ofInt 3)
    rw [hv 3 (by decide), hv (-7) (by decide)] at h
    obtain ⟨r, -, hu, -, h⟩ := h (by decide)
    rw [h, ← hu (-1) ⟨⟨-2, rfl⟩, by decide, .inr rfl⟩]
  · obtain ⟨-, -, -, -, h⟩ := mod_by_any_divisor (.infinity true) (ofInt (-1))
    exact h (hv (-1) (by decide))
  · obtain ⟨-, -, h, -⟩ := mod_by_any_divisor (.infinity true) .nan
    exact h rfl

end Operator

end LispCalc
