import LispCalc.Binary64.Rounding

namespace LispCalc

-- Powers of natural numbers are those of the core library, whatever else is imported.
attribute [local instance (high)] instPowNat

namespace Binary64

def lastRank : Nat := 2047 * 2 ^ (52 : Nat) - 1

/-- A significand at a shift: shifted significands use all their bits. -/
structure Scaled (rank shift significand : Nat) : Prop where
  rank_eq : rank = shift * 2 ^ (52 : Nat) + significand
  significand_lt : significand < 2 ^ (53 : Nat)
  full : shift = 0 ∨ 2 ^ (52 : Nat) ≤ significand

theorem exists_scaled (rank : Nat) : ∃ shift significand, Scaled rank shift significand := by
  by_cases h : rank < 2 ^ (52 : Nat)
  · exact ⟨0, rank, by omega, by omega, .inl rfl⟩
  · refine ⟨rank / 2 ^ (52 : Nat) - 1, 2 ^ (52 : Nat) + rank % 2 ^ (52 : Nat), ?_, ?_, .inr ?_⟩ <;>
      omega

namespace Scaled

variable {rank shift significand : Nat}

theorem unitsOfRank_eq (h : Scaled rank shift significand) :
    unitsOfRank rank = significand * 2 ^ shift := by
  obtain ⟨rfl, hl, hf⟩ := h
  rw [unitsOfRank]
  split
  · have hs : shift = 0 := by omega
    rw [hs, Nat.pow_zero, Nat.zero_mul, Nat.zero_add, Nat.mul_one]
  · have hq : (shift * 2 ^ (52 : Nat) + significand) / 2 ^ (52 : Nat) - 1 = shift := by omega
    have hr : 2 ^ (52 : Nat) + (shift * 2 ^ (52 : Nat) + significand) % 2 ^ (52 : Nat) =
        significand := by omega
    rw [hq, hr]

theorem unitsOfRank_succ (h : Scaled rank shift significand) :
    unitsOfRank (rank + 1) = (significand + 1) * 2 ^ shift := by
  obtain ⟨hr, hl, hf⟩ := h
  by_cases hc : significand + 1 < 2 ^ (53 : Nat)
  · exact unitsOfRank_eq ⟨by omega, hc, by omega⟩
  · have hn : Scaled (rank + 1) (shift + 1) (2 ^ (52 : Nat)) := ⟨by omega, by decide, by omega⟩
    have hs : significand + 1 = 2 ^ (52 : Nat) * 2 := by omega
    rw [hn.unitsOfRank_eq, hs, Nat.pow_succ 2 shift, Nat.mul_assoc, Nat.mul_comm 2]

end Scaled

theorem unitsOfRank_lt_succ (rank : Nat) : unitsOfRank rank < unitsOfRank (rank + 1) := by
  obtain ⟨shift, significand, h⟩ := exists_scaled rank
  rw [h.unitsOfRank_eq, h.unitsOfRank_succ]
  exact Nat.mul_lt_mul_of_pos_right (Nat.lt_succ_self _) (Nat.two_pow_pos _)

theorem unitsOfRank_le {rank rank' : Nat} (h : rank ≤ rank') :
    unitsOfRank rank ≤ unitsOfRank rank' := by
  induction h with
  | refl => exact Nat.le_refl _
  | step _ ih => exact Nat.le_trans ih (Nat.le_of_lt (unitsOfRank_lt_succ _))

theorem exists_unitsOfRank_eq {significand : Nat} (h : significand < 2 ^ (53 : Nat)) (shift : Nat) :
    ∃ rank, unitsOfRank rank = significand * 2 ^ shift := by
  induction shift generalizing significand with
  | zero => exact ⟨_, (Scaled.mk (Nat.zero_add _).symm h (.inl rfl)).unitsOfRank_eq⟩
  | succ shift ih =>
    by_cases hf : 2 ^ (52 : Nat) ≤ significand
    · exact ⟨_, (Scaled.mk rfl h (.inr hf)).unitsOfRank_eq⟩
    · obtain ⟨rank, hr⟩ := ih (show 2 * significand < 2 ^ (53 : Nat) by omega)
      exact ⟨rank, by rw [hr, Nat.pow_succ', Nat.mul_left_comm, Nat.mul_assoc]⟩

theorem rank_lt_of_unitsOfRank_eq {rank significand shift : Nat}
    (h : unitsOfRank rank = significand * 2 ^ shift) (hs : significand < 2 ^ (53 : Nat)) :
    rank < (shift + 2) * 2 ^ (52 : Nat) := by
  have hn : Scaled ((shift + 2) * 2 ^ (52 : Nat)) (shift + 1) (2 ^ (52 : Nat)) :=
    ⟨by omega, by decide, .inr (Nat.le_refl _)⟩
  have hb : unitsOfRank ((shift + 2) * 2 ^ (52 : Nat)) = 2 ^ (53 : Nat) * 2 ^ shift := by
    rw [hn.unitsOfRank_eq, Nat.pow_succ' (n := shift), ← Nat.mul_assoc]
  rw [← Nat.not_le]
  intro hle
  have hu := unitsOfRank_le hle
  rw [hb, h] at hu
  exact absurd hs (Nat.not_lt.mpr (Nat.le_of_mul_le_mul_right hu (Nat.two_pow_pos shift)))

def roundedRank (num den : Nat) : Nat :=
  ((num / den).log2 - 52) * 2 ^ (52 : Nat) + roundHalfEven num (den * 2 ^ ((num / den).log2 - 52))

theorem ofRatio_eq (negative : Bool) (num den : Nat) :
    ofRatio negative num den =
      if h : roundedRank num den < 2047 * 2 ^ (52 : Nat) then
        .finite negative ⟨roundedRank num den, h⟩
      else .infinity negative := rfl

/-- What rounding does to a ratio between the magnitudes of two neighbouring ranks, the lower one
given: twice the ratio is compared with the sum of the two. -/
structure Rounds (num den lower rank : Nat) : Prop where
  lower_le : unitsOfRank lower * den ≤ num
  lt_upper : num < unitsOfRank (lower + 1) * den
  neighbour : rank = lower ∨ rank = lower + 1
  le_middle : rank = lower → 2 * num ≤ (unitsOfRank lower + unitsOfRank (lower + 1)) * den
  middle_le : rank = lower + 1 → (unitsOfRank lower + unitsOfRank (lower + 1)) * den ≤ 2 * num
  even : 2 * num = (unitsOfRank lower + unitsOfRank (lower + 1)) * den → rank % 2 = 0

theorem scaled_quotient (num den : Nat) :
    Scaled (((num / den).log2 - 52) * 2 ^ (52 : Nat) + num / (den * 2 ^ ((num / den).log2 - 52)))
      ((num / den).log2 - 52) (num / (den * 2 ^ ((num / den).log2 - 52))) := by
  rw [← Nat.div_div_eq_div_mul]
  generalize num / den = q
  refine ⟨rfl, ?_, ?_⟩
  · rw [Nat.div_lt_iff_lt_mul (Nat.two_pow_pos _), ← Nat.pow_add]
    exact Nat.lt_of_lt_of_le Nat.lt_log2_self (Nat.pow_le_pow_right (by decide) (by omega))
  · by_cases hq : q.log2 ≤ 52
    · exact .inl (by omega)
    · right
      have hz : q ≠ 0 := by
        rintro rfl
        exact hq (by decide)
      rw [Nat.le_div_iff_mul_le (Nat.two_pow_pos _), ← Nat.pow_add]
      exact (Nat.le_log2 hz).mp (by omega)

/-- Every ratio lies between two neighbouring magnitudes, and is rounded to the rank of one of
them. -/
theorem exists_rounds (num : Nat) {den : Nat} (hd : 0 < den) :
    ∃ lower, Rounds num den lower (roundedRank num den) := by
  have hs := scaled_quotient num den
  rw [roundedRank]
  generalize (num / den).log2 - 52 = shift at hs ⊢
  have hp : 0 < den * 2 ^ shift := Nat.mul_pos hd (Nat.two_pow_pos _)
  have hdiv := Nat.div_add_mod num (den * 2 ^ shift)
  have hmod := Nat.mod_lt num hp
  have hl := hs.unitsOfRank_eq
  have hu := hs.unitsOfRank_succ
  refine ⟨shift * 2 ^ (52 : Nat) + num / (den * 2 ^ shift), ?_⟩
  rw [roundHalfEven]
  generalize num / (den * 2 ^ shift) = floor at *
  generalize num % (den * 2 ^ shift) = rest at *
  have hlow : unitsOfRank (shift * 2 ^ (52 : Nat) + floor) * den = den * 2 ^ shift * floor := by
    rw [hl, Nat.mul_comm, Nat.mul_comm floor, Nat.mul_assoc]
  have hup : unitsOfRank (shift * 2 ^ (52 : Nat) + floor + 1) * den =
      den * 2 ^ shift * floor + den * 2 ^ shift := by
    rw [hu, Nat.mul_comm, Nat.mul_comm (floor + 1), ← Nat.mul_assoc, Nat.mul_succ]
  have hmid := Nat.add_mul (unitsOfRank (shift * 2 ^ (52 : Nat) + floor))
    (unitsOfRank (shift * 2 ^ (52 : Nat) + floor + 1)) den
  rw [hlow, hup] at hmid
  generalize den * 2 ^ shift * floor = low at *
  generalize den * 2 ^ shift = gap at *
  split
  · constructor <;> omega
  · split <;> constructor <;> omega

namespace Rounds

variable {num den lower rank : Nat}

theorem outside (rank lower : Nat) : unitsOfRank rank ≤ unitsOfRank lower ∨
    unitsOfRank (lower + 1) ≤ unitsOfRank rank := by
  by_cases h : rank ≤ lower
  · exact .inl (unitsOfRank_le h)
  · exact .inr (unitsOfRank_le (by omega))

theorem nearest (h : Rounds num den lower rank) (rank' : Nat) :
    ((num : Int) - (unitsOfRank rank * den : Nat)).natAbs ≤
      ((num : Int) - (unitsOfRank rank' * den : Nat)).natAbs := by
  have hl := h.lower_le
  have hu := h.lt_upper
  have hm := Nat.add_mul (unitsOfRank lower) (unitsOfRank (lower + 1)) den
  have ho := (outside rank' lower).imp (Nat.mul_le_mul_right den) (Nat.mul_le_mul_right den)
  rcases h.neighbour with hr | hr
  · have hle := h.le_middle hr
    rw [hr]
    omega
  · have hle := h.middle_le hr
    rw [hr]
    omega

theorem even_of_tie (h : Rounds num den lower rank) {rank' : Nat}
    (hne : unitsOfRank rank' * den ≠ unitsOfRank rank * den)
    (ht : ((num : Int) - (unitsOfRank rank * den : Nat)).natAbs =
      ((num : Int) - (unitsOfRank rank' * den : Nat)).natAbs) : rank % 2 = 0 := by
  have hl := h.lower_le
  have hu := h.lt_upper
  have hm := Nat.add_mul (unitsOfRank lower) (unitsOfRank (lower + 1)) den
  have ho := (outside rank' lower).imp (Nat.mul_le_mul_right den) (Nat.mul_le_mul_right den)
  apply h.even
  rcases h.neighbour with hr | hr
  · have hle := h.le_middle hr
    rw [hr] at hne ht
    omega
  · have hle := h.middle_le hr
    rw [hr] at hne ht
    omega

theorem le_iff (h : Rounds num den lower rank) {last : Nat} (hlast : last % 2 = 1) :
    last < rank ↔ (unitsOfRank last + unitsOfRank (last + 1)) * den ≤ 2 * num := by
  have hl := h.lower_le
  have hu := h.lt_upper
  have hm := Nat.add_mul (unitsOfRank lower) (unitsOfRank (lower + 1)) den
  have hml := Nat.add_mul (unitsOfRank last) (unitsOfRank (last + 1)) den
  have hstep := Nat.mul_le_mul_right den (Nat.le_of_lt (unitsOfRank_lt_succ last))
  rcases Nat.lt_trichotomy lower last with hlt | rfl | hgt
  · have h1 := Nat.mul_le_mul_right den (unitsOfRank_le (Nat.succ_le_of_lt hlt))
    have hn : ¬ last < rank := by
      rcases h.neighbour with hr | hr <;> omega
    simp only [hn, false_iff]
    rw [Nat.succ_eq_add_one] at h1
    omega
  · rcases h.neighbour with hr | hr
    · have hle := h.le_middle hr
      have he := h.even
      omega
    · have hle := h.middle_le hr
      omega
  · have h1 := Nat.mul_le_mul_right den (unitsOfRank_le (Nat.succ_le_of_lt hgt))
    have hp : last < rank := by
      rcases h.neighbour with hr | hr <;> omega
    simp only [hp, true_iff]
    rw [Nat.succ_eq_add_one] at h1
    omega

end Rounds

end Binary64

end LispCalc
