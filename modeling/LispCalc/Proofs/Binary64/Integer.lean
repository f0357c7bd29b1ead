import LispCalc.Proofs.Binary64.Nearest

namespace LispCalc

-- Powers of natural numbers are those of the core library, whatever else is imported.
attribute [local instance (high)] instPowNat

namespace Binary64

theorem magnitude_lt_overflow (rank : Fin (2047 * 2 ^ (52 : Nat))) : magnitude rank < overflow := by
  have hr : rank.val ≤ lastRank := by
    have h := rank.isLt
    rw [lastRank]
    omega
  have hl := magnitude_le hr
  have hs := magnitude_lt_succ lastRank
  rw [overflow]
  linarith

theorem IsNearest.value?_eq {q : ℚ} {x y : Binary64} (h : IsNearest q x) (hy : y.value? = some q) :
    x.value? = some q := by
  cases x with
  | nan => exact absurd h.isNaN_eq (by decide)
  | infinity negative =>
    obtain ⟨negative', rank', -, rfl⟩ := value?_eq_some hy
    have ho := h.isInfinite_iff.mp rfl
    rw [abs_signedBy _ (magnitude_nonneg _)] at ho
    exact absurd (magnitude_lt_overflow rank') (not_lt.mpr ho)
  | finite negative rank =>
    have hd := h.nearest _ rfl y q hy
    rw [sub_self, abs_zero] at hd
    have hz := abs_eq_zero.mp (le_antisymm hd (abs_nonneg _))
    rw [sub_eq_zero.mp hz]
    rfl

theorem exists_value?_eq {n : Int} (h : n.natAbs ≤ 2 ^ (53 : Nat)) :
    ∃ x : Binary64, x.value? = some (n : ℚ) := by
  have hu := unitPlaces_eq
  obtain ⟨significand, shift, hs, he, hv⟩ : ∃ significand shift : Nat,
      significand < 2 ^ (53 : Nat) ∧ shift ≤ 2045 ∧
        n.natAbs * unitsPerOne = significand * 2 ^ shift := by
    by_cases hn : n.natAbs < 2 ^ (53 : Nat)
    · exact ⟨n.natAbs, unitPlaces, hn, by omega, rfl⟩
    · -- The bound itself has one bit more, and is the significand one at a greater shift.
      refine ⟨1, 53 + unitPlaces, by decide, by omega, ?_⟩
      rw [show n.natAbs = 2 ^ (53 : Nat) by omega, Nat.one_mul, Nat.pow_add, unitsPerOne]
  obtain ⟨rank, hr⟩ := exists_unitsOfRank_eq hs shift
  have hl : rank < 2047 * 2 ^ (52 : Nat) := by
    have hb := rank_lt_of_unitsOfRank_eq hr hs
    have hm : (shift + 2) * 2 ^ (52 : Nat) ≤ 2047 * 2 ^ (52 : Nat) :=
      Nat.mul_le_mul_right _ (by omega)
    exact Nat.lt_of_lt_of_le hb hm
  refine ⟨.finite (decide ((n : ℚ) < 0)) ⟨rank, hl⟩, ?_⟩
  have hm : magnitude rank = |(n : ℚ)| := by
    rw [magnitude, hr, ← hv, Nat.cast_mul, mul_div_cancel_right₀ _ (ne_of_gt unitsPerOne_pos_rat),
      Nat.cast_natAbs, Int.cast_abs]
  rw [value?, hm, signedBy_abs]

theorem value?_ofInt {n : Int} (h : n.natAbs ≤ 2 ^ (53 : Nat)) :
    (ofInt n).value? = some (n : ℚ) := by
  obtain ⟨x, hx⟩ := exists_value?_eq h
  exact (isNearest_ofInt n).value?_eq hx

theorem cast_signed (negative : Bool) (m : Nat) :
    (signed negative m : ℚ) = signedBy negative m := by
  cases negative with
  | false => exact Int.cast_natCast m
  | true => rw [signed, signedBy, if_pos rfl, if_pos rfl, Int.cast_neg, Int.cast_natCast]

theorem unitsOfRank_of_value?_eq {negative : Bool} {rank : Fin (2047 * 2 ^ (52 : Nat))} {n : Int}
    (h : (finite negative rank).value? = some (n : ℚ)) :
    unitsOfRank rank = n.natAbs * unitsPerOne ∧ signed negative n.natAbs = n := by
  have hs : signedBy negative (magnitude rank) = n := Option.some.inj h
  have hm : magnitude rank = (n.natAbs : ℚ) := by
    rw [← abs_signedBy negative (magnitude_nonneg rank), hs, Nat.cast_natAbs, Int.cast_abs]
  constructor
  · rw [magnitude, div_eq_iff (ne_of_gt unitsPerOne_pos_rat)] at hm
    exact_mod_cast hm
  · rw [← @Int.cast_inj ℚ, cast_signed, ← hm, hs]

theorem toInt64_eq {x : Binary64} {n : Int} (h : x.value? = some (n : ℚ)) :
    x.toInt64 = Int64.ofIntClamp n := by
  cases x with
  | nan | infinity => cases h
  | finite negative rank =>
    obtain ⟨hu, hs⟩ := unitsOfRank_of_value?_eq h
    rw [toInt64, hu, Nat.mul_div_cancel _ unitsPerOne_pos, hs]

end Binary64

end LispCalc
