import LispCalc.Proofs.Binary64.Magnitude
import Mathlib.Algebra.Order.Field.Basic
import Mathlib.Algebra.Order.Ring.Rat
import Mathlib.Data.Rat.Cast.Order
import Mathlib.Tactic.Linarith
import Mathlib.Tactic.FieldSimp
import Mathlib.Tactic.Ring

namespace LispCalc

-- Powers of natural numbers are those of the core library, whatever else is imported.
attribute [local instance (high)] instPowNat

namespace Binary64

def magnitude (rank : Nat) : ℚ :=
  unitsOfRank rank / unitsPerOne

def signedBy (negative : Bool) (m : ℚ) : ℚ :=
  if negative then -m else m

def value? : Binary64 → Option ℚ
  | .nan | .infinity _ => none
  | .finite negative rank => some (signedBy negative (magnitude rank))

def isNegative : Binary64 → Bool
  | .nan => false
  | .infinity negative | .finite negative _ => negative

def isEven : Binary64 → Bool
  | .nan | .infinity _ => false
  | .finite _ rank => rank.val % 2 = 0

/-- The middle between the greatest finite magnitude and the next one that there would be. -/
def overflow : ℚ :=
  (magnitude lastRank + magnitude (lastRank + 1)) / 2

/-- The number is `q` rounded correctly: it has the sign of `q`, and unless `q` overflows no
finite number is nearer to it; one that is as near is there only if the number chosen is the even
one. -/
structure IsNearest (q : ℚ) (x : Binary64) : Prop where
  isNaN_eq : x.isNaN = false
  sign : q ≠ 0 → x.isNegative = decide (q < 0)
  isInfinite_iff : x.isInfinite ↔ overflow ≤ |q|
  nearest : ∀ v, x.value? = some v → ∀ (y : Binary64) w, y.value? = some w → |q - v| ≤ |q - w|
  even : ∀ v, x.value? = some v → ∀ (y : Binary64) w, y.value? = some w → w ≠ v →
    |q - v| = |q - w| → x.isEven

theorem unitsPerOne_pos_rat : (0 : ℚ) < unitsPerOne :=
  Nat.cast_pos.mpr unitsPerOne_pos

theorem magnitude_nonneg (rank : Nat) : 0 ≤ magnitude rank :=
  div_nonneg (Nat.cast_nonneg _) (Nat.cast_nonneg _)

theorem magnitude_zero : magnitude 0 = 0 := by
  rw [magnitude, show unitsOfRank 0 = 0 from rfl, Nat.cast_zero, zero_div]

theorem magnitude_le {rank rank' : Nat} (h : rank ≤ rank') : magnitude rank ≤ magnitude rank' :=
  div_le_div_of_nonneg_right (Nat.cast_le.mpr (unitsOfRank_le h)) (Nat.cast_nonneg _)

theorem magnitude_lt_succ (rank : Nat) : magnitude rank < magnitude (rank + 1) :=
  div_lt_div_of_pos_right (Nat.cast_lt.mpr (unitsOfRank_lt_succ rank)) unitsPerOne_pos_rat

theorem magnitude_lt {rank rank' : Nat} (h : rank < rank') : magnitude rank < magnitude rank' :=
  lt_of_lt_of_le (magnitude_lt_succ rank) (magnitude_le h)

theorem magnitude_middle (rank rank' : Nat) : (magnitude rank + magnitude rank') / 2 =
    ((unitsOfRank rank + unitsOfRank rank' : Nat) : ℚ) / (2 * unitsPerOne) := by
  rw [magnitude, magnitude, ← add_div, div_right_comm, div_div, Nat.cast_add]

theorem signedBy_zero (negative : Bool) : signedBy negative 0 = 0 := by
  cases negative with
  | false => rfl
  | true => exact neg_zero

theorem signedBy_abs (q : ℚ) : signedBy (decide (q < 0)) |q| = q := by
  rw [signedBy]
  split
  · rename_i h
    rw [abs_of_neg (of_decide_eq_true h), neg_neg]
  · rename_i h
    exact abs_of_nonneg (not_lt.mp fun hq => h (decide_eq_true hq))

theorem abs_signedBy (negative : Bool) {m : ℚ} (h : 0 ≤ m) : |signedBy negative m| = m := by
  rw [signedBy]
  split
  · rw [abs_neg, abs_of_nonneg h]
  · exact abs_of_nonneg h

theorem abs_sub_signedBy (negative : Bool) (m m' : ℚ) :
    |signedBy negative m - signedBy negative m'| = |m - m'| := by
  cases negative with
  | false => rfl
  | true => rw [signedBy, signedBy, if_pos rfl, if_pos rfl, neg_sub_neg, abs_sub_comm]

theorem abs_sub_signedBy_not (negative : Bool) {m m' : ℚ} (h : 0 ≤ m) (h' : 0 ≤ m') :
    |signedBy negative m - signedBy (!negative) m'| = m + m' := by
  have hm : 0 ≤ m + m' := add_nonneg h h'
  cases negative with
  | false =>
    rw [Bool.not_false, signedBy, signedBy, if_neg Bool.false_ne_true, if_pos rfl, sub_neg_eq_add,
      abs_of_nonneg hm]
  | true =>
    rw [Bool.not_true, signedBy, signedBy, if_pos rfl, if_neg Bool.false_ne_true, ← neg_add',
      abs_neg, abs_of_nonneg hm]

theorem abs_sub_magnitude (num : Nat) {den : Nat} (hd : 0 < den) (rank : Nat) :
    |(num : ℚ) / (den * unitsPerOne) - magnitude rank| =
      (((num : Int) - (unitsOfRank rank * den : Nat)).natAbs : ℚ) / (den * unitsPerOne) := by
  have hdq : (0 : ℚ) < den := Nat.cast_pos.mpr hd
  have hu := unitsPerOne_pos_rat
  have hs : (num : ℚ) / (den * unitsPerOne) - magnitude rank =
      ((num : Int) - (unitsOfRank rank * den : Nat) : Int) / (den * unitsPerOne) := by
    rw [magnitude]
    field_simp
    push_cast
    ring
  rw [hs, abs_div, abs_of_pos (mul_pos hdq hu), Nat.cast_natAbs, Int.cast_abs]

theorem abs_sub_le_abs_sub_signedBy (negative negative' : Bool) {m m' : ℚ} (h : 0 ≤ m)
    (h' : 0 ≤ m') : |m - m'| ≤ |signedBy negative m - signedBy negative' m'| := by
  by_cases hs : negative' = negative
  · rw [hs, abs_sub_signedBy]
  · rw [Bool.eq_not_of_ne hs, abs_sub_signedBy_not negative h h', abs_le]
    constructor <;> linarith

namespace Rounds

variable {num den lower rank : Nat}

theorem abs_sub_le (h : Rounds num den lower rank) (hd : 0 < den) (rank' : Nat) :
    |(num : ℚ) / (den * unitsPerOne) - magnitude rank| ≤
      |(num : ℚ) / (den * unitsPerOne) - magnitude rank'| := by
  rw [abs_sub_magnitude num hd, abs_sub_magnitude num hd]
  apply div_le_div_of_nonneg_right _ (mul_nonneg (Nat.cast_nonneg _) (Nat.cast_nonneg _))
  exact Nat.cast_le.mpr (h.nearest rank')

theorem even_of_abs_sub_eq (h : Rounds num den lower rank) (hd : 0 < den) {rank' : Nat}
    (hne : magnitude rank' ≠ magnitude rank)
    (ht : |(num : ℚ) / (den * unitsPerOne) - magnitude rank| =
      |(num : ℚ) / (den * unitsPerOne) - magnitude rank'|) : rank % 2 = 0 := by
  have hdu : (den : ℚ) * unitsPerOne ≠ 0 :=
    ne_of_gt (mul_pos (Nat.cast_pos.mpr hd) unitsPerOne_pos_rat)
  rw [abs_sub_magnitude num hd, abs_sub_magnitude num hd, div_left_inj' hdu, Nat.cast_inj] at ht
  refine h.even_of_tie (fun he => hne ?_) ht
  rw [magnitude, magnitude, Nat.eq_of_mul_eq_mul_right hd he]

theorem lastRank_lt_iff (h : Rounds num den lower rank) (hd : 0 < den) :
    lastRank < rank ↔ overflow ≤ (num : ℚ) / (den * unitsPerOne) := by
  have hdq : (0 : ℚ) < den := Nat.cast_pos.mpr hd
  have hu := unitsPerOne_pos_rat
  rw [h.le_iff (by decide), overflow, magnitude_middle,
    div_le_div_iff₀ (by linarith) (mul_pos hdq hu), ← @Nat.cast_le ℚ]
  generalize unitsOfRank lastRank + unitsOfRank (lastRank + 1) = middle
  push_cast
  constructor
  · intro hle
    have hm := mul_le_mul_of_nonneg_right hle (le_of_lt hu)
    linarith
  · intro hle
    have hm : ((middle : ℚ) * den) * unitsPerOne ≤ (2 * num) * unitsPerOne := by linarith
    exact le_of_mul_le_mul_right hm hu

end Rounds

theorem value?_eq_some {x : Binary64} {v : ℚ} (h : x.value? = some v) :
    ∃ negative rank, x = .finite negative rank ∧ v = signedBy negative (magnitude rank) := by
  cases x with
  | nan | infinity => cases h
  | finite negative rank =>
    cases h
    exact ⟨negative, rank, rfl, rfl⟩

theorem ofRatio_cases (negative : Bool) (num den : Nat) :
    (∃ h, ofRatio negative num den = .finite negative ⟨roundedRank num den, h⟩) ∨
      lastRank < roundedRank num den ∧ ofRatio negative num den = .infinity negative := by
  rw [ofRatio_eq]
  split
  · rename_i h
    exact .inl ⟨h, rfl⟩
  · rename_i h
    exact .inr ⟨by rw [lastRank]; omega, rfl⟩

theorem negative_eq_decide (negative : Bool) {m : ℚ} (h : 0 ≤ m) (hne : signedBy negative m ≠ 0) :
    negative = decide (signedBy negative m < 0) := by
  cases negative with
  | false => exact (decide_eq_false (not_lt.mpr h)).symm
  | true =>
    rw [signedBy, if_pos rfl, neg_ne_zero] at hne
    have hlt : signedBy true m < 0 := neg_neg_of_pos (lt_of_le_of_ne h hne.symm)
    exact (decide_eq_true hlt).symm

namespace Rounds

variable {num den lower rank : Nat}

theorem even_of_signed_tie (h : Rounds num den lower rank) (hd : 0 < den)
    {negative negative' : Bool} {rank' : Nat}
    (hne : signedBy negative' (magnitude rank') ≠ signedBy negative (magnitude rank))
    (ht : |signedBy negative ((num : ℚ) / (den * unitsPerOne)) -
        signedBy negative (magnitude rank)| =
      |signedBy negative ((num : ℚ) / (den * unitsPerOne)) -
        signedBy negative' (magnitude rank')|) : rank % 2 = 0 := by
  have hm : (0 : ℚ) ≤ (num : ℚ) / (den * unitsPerOne) :=
    div_nonneg (Nat.cast_nonneg _) (mul_nonneg (Nat.cast_nonneg _) (Nat.cast_nonneg _))
  have hz := h.abs_sub_le hd 0
  have hle := h.abs_sub_le hd rank'
  have hfar := abs_sub_le_abs_sub_signedBy negative negative' hm (magnitude_nonneg rank')
  by_cases hr : magnitude rank' = magnitude rank
  · -- The same magnitude with the other sign is as near only to zero, which is a magnitude itself.
    exfalso
    have hs : negative' = !negative := by
      apply Bool.eq_not_of_ne
      rintro rfl
      exact hne (by rw [hr])
    rw [hs, hr, abs_sub_signedBy, abs_sub_signedBy_not negative hm (magnitude_nonneg rank)] at ht
    rw [ht, magnitude_zero, sub_zero, abs_of_nonneg hm] at hz
    have ha : magnitude rank = 0 := le_antisymm (by linarith) (magnitude_nonneg rank)
    apply hne
    rw [hr, ha, signedBy_zero, signedBy_zero]
  · apply h.even_of_abs_sub_eq hd hr
    rw [abs_sub_signedBy] at ht
    exact le_antisymm hle (hfar.trans (le_of_eq ht.symm))

end Rounds

namespace IsNearest

variable {q : ℚ} {negative : Bool}

theorem not_rank_lt {rank rank' : Fin (2047 * 2 ^ (52 : Nat))}
    (h : IsNearest q (.finite negative rank)) (h' : IsNearest q (.finite negative rank')) :
    ¬ rank.val < rank'.val := by
  intro hlt
  obtain ⟨m, rfl⟩ : ∃ m, q = signedBy negative m := by
    by_cases hq : q = 0
    · exact ⟨0, by rw [signedBy_zero, hq]⟩
    · exact ⟨|q|, by rw [show negative = decide (q < 0) from h.sign hq, signedBy_abs]⟩
  have hv (rank : Fin (2047 * 2 ^ (52 : Nat))) :
      value? (.finite negative rank) = some (signedBy negative (magnitude rank)) := rfl
  have ht := le_antisymm (h.nearest _ (hv rank) _ _ (hv rank'))
    (h'.nearest _ (hv rank') _ _ (hv rank))
  have hne : signedBy negative (magnitude rank') ≠ signedBy negative (magnitude rank) := by
    rw [← sub_ne_zero, ← abs_ne_zero, abs_sub_signedBy, abs_ne_zero, sub_ne_zero]
    exact ne_of_gt (magnitude_lt hlt)
  have he : rank.val % 2 = 0 := of_decide_eq_true (h.even _ (hv rank) _ _ (hv rank') hne ht)
  have he' : rank'.val % 2 = 0 :=
    of_decide_eq_true (h'.even _ (hv rank') _ _ (hv rank) hne.symm ht.symm)
  have hmid : rank.val + 1 < rank'.val := by omega
  have hn := h.nearest _ (hv rank) _ _ (hv ⟨rank + 1, by omega⟩)
  rw [abs_sub_signedBy, abs_sub_signedBy] at ht hn
  have hl := magnitude_lt_succ rank
  have hu := magnitude_lt hmid
  rcases abs_eq_abs.mp ht with hm | hm
  · linarith
  · rw [abs_of_pos (by linarith : 0 < m - magnitude rank), le_abs] at hn
    rcases hn with hn | hn <;> linarith

/-- Correct rounding leaves no choice but that of the sign of zero. -/
theorem unique {x y : Binary64} (hq : q ≠ 0) (hx : IsNearest q x) (hy : IsNearest q y) : x = y := by
  have hs : x.isNegative = y.isNegative := by
    rw [hx.sign hq, hy.sign hq]
  have hi : x.isInfinite ↔ y.isInfinite := by
    rw [hx.isInfinite_iff, hy.isInfinite_iff]
  cases x with
  | nan => exact absurd hx.isNaN_eq (by decide)
  | infinity negative =>
    cases y with
    | nan => exact absurd hy.isNaN_eq (by decide)
    | infinity negative' => exact congrArg infinity hs
    | finite negative' rank' => exact absurd (hi.mp rfl) Bool.false_ne_true
  | finite negative rank =>
    cases y with
    | nan => exact absurd hy.isNaN_eq (by decide)
    | infinity negative' => exact absurd (hi.mpr rfl) Bool.false_ne_true
    | finite negative' rank' =>
      cases hs
      have hr : rank.val = rank'.val :=
        Nat.le_antisymm (Nat.not_lt.mp (hy.not_rank_lt hx)) (Nat.not_lt.mp (hx.not_rank_lt hy))
      rw [Fin.ext hr]

end IsNearest

theorem isNearest_ofRatio (negative : Bool) (num : Nat) {den : Nat} (hd : 0 < den) :
    IsNearest (signedBy negative ((num : ℚ) / (den * unitsPerOne))) (ofRatio negative num den) := by
  obtain ⟨lower, hr⟩ := exists_rounds num hd
  have hm : (0 : ℚ) ≤ (num : ℚ) / (den * unitsPerOne) :=
    div_nonneg (Nat.cast_nonneg _) (mul_nonneg (Nat.cast_nonneg _) (Nat.cast_nonneg _))
  have hover := hr.lastRank_lt_iff hd
  rcases ofRatio_cases negative num den with ⟨hf, he⟩ | ⟨hl, he⟩
  · have hn : ¬ lastRank < roundedRank num den := by
      rw [lastRank]
      omega
    rw [he]
    refine ⟨rfl, negative_eq_decide negative hm, ?_, ?_, ?_⟩
    · rw [abs_signedBy negative hm, ← hover]
      exact iff_of_false Bool.false_ne_true hn
    · intro v hv y w hw
      obtain ⟨negative', rank', -, rfl⟩ := value?_eq_some hw
      cases hv
      rw [abs_sub_signedBy]
      exact (hr.abs_sub_le hd rank').trans
        (abs_sub_le_abs_sub_signedBy negative negative' hm (magnitude_nonneg _))
    · intro v hv y w hw hne ht
      obtain ⟨negative', rank', -, rfl⟩ := value?_eq_some hw
      cases hv
      exact decide_eq_true (hr.even_of_signed_tie hd hne ht)
  · rw [he]
    refine ⟨rfl, negative_eq_decide negative hm, ?_, fun v hv => (nomatch hv),
      fun v hv => (nomatch hv)⟩
    rw [abs_signedBy negative hm]
    exact iff_of_true rfl (hover.mp hl)

theorem isNearest_ofInt (n : Int) : IsNearest n (ofInt n) := by
  have h := isNearest_ofRatio (decide (n * unitsPerOne < 0)) (n * unitsPerOne).natAbs Nat.one_pos
  have hu := unitsPerOne_pos_rat
  have hs : decide (n * (unitsPerOne : Int) < 0) = decide ((n : ℚ) < 0) := by
    rw [decide_eq_decide, Int.cast_lt_zero, ← not_le,
      mul_nonneg_iff_of_pos_right (Int.natCast_pos.mpr unitsPerOne_pos), not_le]
  have hv : ((n * unitsPerOne).natAbs : ℚ) / ((1 : Nat) * unitsPerOne) = |(n : ℚ)| := by
    rw [Nat.cast_natAbs, Int.cast_abs, Int.cast_mul, Int.cast_natCast, abs_mul, abs_of_pos hu,
      Nat.cast_one, one_mul, mul_div_cancel_right₀ _ (ne_of_gt hu)]
  rw [hv, hs, signedBy_abs] at h
  rw [ofInt, ofUnits, hs]
  exact h

end Binary64

end LispCalc
