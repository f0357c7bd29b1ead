import LispCalc.Decimal.Shortest

namespace LispCalc

-- Powers of natural numbers are those of the core library, whatever else is imported.
attribute [local instance (high)] instPowNat

theorem roundHalfEven_mul_mul (n d : Nat) {k : Nat} (hk : 0 < k) :
    roundHalfEven (n * k) (d * k) = roundHalfEven n d := by
  have hlt (a b : Nat) : 2 * (a * k) < b * k ↔ 2 * a < b := by
    rw [← Nat.mul_assoc]
    exact Nat.mul_lt_mul_right hk
  have hgt (a b : Nat) : b * k < 2 * (a * k) ↔ b < 2 * a := by
    rw [← Nat.mul_assoc]
    exact Nat.mul_lt_mul_right hk
  simp only [roundHalfEven, Nat.mul_div_mul_right n d hk, Nat.mul_mod_mul_right, hlt, hgt]

namespace Binary64

theorem ofRatio_mul_mul (negative : Bool) (num den : Nat) {k : Nat} (hk : 0 < k) :
    ofRatio negative (num * k) (den * k) = ofRatio negative num den := by
  have hr (shift : Nat) : roundHalfEven (num * k) (den * k * 2 ^ shift) =
      roundHalfEven num (den * 2 ^ shift) := by
    rw [Nat.mul_right_comm den k]
    exact roundHalfEven_mul_mul num (den * 2 ^ shift) hk
  simp only [ofRatio, Nat.mul_div_mul_right num den hk, hr]

theorem ofRatio_congr (negative : Bool) {num den num' den' : Nat} (hd : 0 < den)
    (hd' : 0 < den') (h : num * den' = num' * den) :
    ofRatio negative num den = ofRatio negative num' den' := by
  rw [← ofRatio_mul_mul negative num den hd', h, Nat.mul_comm den den',
    ofRatio_mul_mul negative num' den' hd]

theorem ofRatio_eq_finite {negative : Bool} {num den : Nat} {rank : Fin (2047 * 2 ^ (52 : Nat))}
    (h : ofRatio negative num den = .finite negative rank) (negative' : Bool) :
    ofRatio negative' num den = .finite negative' rank := by
  simp only [ofRatio] at h ⊢
  split at h
  · rename_i hr
    rw [dif_pos hr]
    cases h
    rfl
  · cases h

theorem ofRatio_of_double_lt (negative : Bool) {num den : Nat} (h : 2 * num < den) :
    ofRatio negative num den = .finite negative 0 := by
  have hq : num / den = 0 := Nat.div_eq_of_lt (by omega)
  have hr : roundHalfEven num (den * 2 ^ (0 : Nat)) = 0 := by
    rw [Nat.pow_zero, Nat.mul_one]
    simp only [roundHalfEven, hq, Nat.mod_eq_of_lt (show num < den by omega), if_pos h]
  simp only [ofRatio, hq, Nat.log2_zero, Nat.zero_sub, hr]
  rfl

theorem ofRatio_of_two_pow_le (negative : Bool) {num : Nat} (h : 2 ^ (2099 : Nat) ≤ num) :
    ofRatio negative num 1 = .infinity negative := by
  have hn : num ≠ 0 := Nat.ne_of_gt (Nat.lt_of_lt_of_le (Nat.two_pow_pos 2099) h)
  have hl : 2099 ≤ num.log2 := (Nat.le_log2 hn).mpr h
  have hr : ¬ (num.log2 - 52) * 2 ^ (52 : Nat) +
      roundHalfEven num (1 * 2 ^ (num.log2 - 52)) < 2047 * 2 ^ (52 : Nat) := by
    have hm : 2047 * 2 ^ (52 : Nat) ≤ (num.log2 - 52) * 2 ^ (52 : Nat) :=
      Nat.mul_le_mul_right _ (by omega)
    omega
  simp only [ofRatio, Nat.div_one, dif_neg hr]

theorem log2_unitsOfRank {rank : Nat} (h : 2 ^ (52 : Nat) ≤ rank) :
    (unitsOfRank rank).log2 = 52 + (rank / 2 ^ (52 : Nat) - 1) := by
  have hm : rank % 2 ^ (52 : Nat) < 2 ^ (52 : Nat) := Nat.mod_lt _ (Nat.two_pow_pos 52)
  rw [unitsOfRank, if_neg (Nat.not_lt.mpr h)]
  generalize rank / 2 ^ (52 : Nat) - 1 = exponent
  generalize rank % 2 ^ (52 : Nat) = fraction at hm
  have hp : 0 < (2 ^ (52 : Nat) + fraction) * 2 ^ exponent :=
    Nat.mul_pos (by omega) (Nat.two_pow_pos exponent)
  apply (Nat.log2_eq_iff (Nat.ne_of_gt hp)).mpr
  constructor
  · rw [Nat.pow_add]
    exact Nat.mul_le_mul_right _ (by omega)
  · rw [show 52 + exponent + 1 = 53 + exponent by omega, Nat.pow_add]
    exact Nat.mul_lt_mul_of_pos_right (by omega) (Nat.two_pow_pos exponent)

theorem ofRatio_unitsOfRank (negative : Bool) (rank : Fin (2047 * 2 ^ (52 : Nat))) :
    ofRatio negative (unitsOfRank rank) 1 = .finite negative rank := by
  obtain ⟨rank, hr⟩ := rank
  have hround : ((unitsOfRank rank).log2 - 52) * 2 ^ (52 : Nat) +
      roundHalfEven (unitsOfRank rank) (1 * 2 ^ ((unitsOfRank rank).log2 - 52)) = rank := by
    by_cases hs : rank < 2 ^ (52 : Nat)
    · have hu : unitsOfRank rank = rank := if_pos hs
      have hl : rank.log2 - 52 = 0 := by
        by_cases hz : rank = 0
        · rw [hz]
          rfl
        · have hb := (Nat.log2_lt hz).mpr hs
          omega
      have hround := roundHalfEven_mul rank 1 Nat.one_pos
      rw [Nat.mul_one] at hround
      rw [hu, hl, Nat.zero_mul, Nat.zero_add, Nat.pow_zero, Nat.mul_one, hround]
    · have hle : 2 ^ (52 : Nat) ≤ rank := Nat.not_lt.mp hs
      have hq : 1 ≤ rank / 2 ^ (52 : Nat) := Nat.div_pos hle (Nat.two_pow_pos 52)
      have hd := Nat.div_add_mod rank (2 ^ (52 : Nat))
      rw [log2_unitsOfRank hle, Nat.add_sub_cancel_left, unitsOfRank, if_neg hs, Nat.one_mul,
        roundHalfEven_mul _ _ (Nat.two_pow_pos _), Nat.sub_mul, Nat.one_mul]
      have hm : 2 ^ (52 : Nat) ≤ rank / 2 ^ (52 : Nat) * 2 ^ (52 : Nat) :=
        Nat.le_mul_of_pos_left _ hq
      rw [Nat.mul_comm] at hd
      omega
  simp only [ofRatio, Nat.div_one, hround, dif_pos hr]

end Binary64

namespace Decimal

open Binary64

/-- The value of a decimal as a ratio of units, and its rounding. -/
def numerator (d : Decimal) : Nat :=
  d.coefficient * 10 ^ d.exponent.toNat

def denominator (d : Decimal) : Nat :=
  10 ^ (-d.exponent).toNat

theorem denominator_pos (d : Decimal) : 0 < d.denominator :=
  Nat.pow_pos (by decide)

theorem two_pow_le_ten_pow (n : Nat) : 2 ^ (3 * n) ≤ 10 ^ n := by
  rw [Nat.pow_mul]
  exact Nat.pow_le_pow_left (by decide) n

theorem two_pow_le_of_large {coefficient exponent : Nat} (hc : coefficient ≠ 0)
    (he : 400 < exponent) : 2 ^ (2099 : Nat) ≤ coefficient * 10 ^ exponent * unitsPerOne := by
  have hu := unitPlaces_eq
  calc 2 ^ (2099 : Nat) ≤ 2 ^ (3 * exponent + unitPlaces) :=
        Nat.pow_le_pow_right (by decide) (by omega)
    _ = 2 ^ (3 * exponent) * unitsPerOne := Nat.pow_add 2 (3 * exponent) unitPlaces
    _ ≤ 10 ^ exponent * unitsPerOne := Nat.mul_le_mul_right _ (two_pow_le_ten_pow exponent)
    _ ≤ coefficient * 10 ^ exponent * unitsPerOne :=
      Nat.mul_le_mul_right _ (Nat.le_mul_of_pos_left _ (Nat.pos_of_ne_zero hc))

theorem double_lt_of_small {coefficient places : Nat} (h : coefficient.log2 + 1100 < 3 * places) :
    2 * (coefficient * unitsPerOne) < 10 ^ places := by
  have hu := unitPlaces_eq
  have hp : 0 < 2 * unitsPerOne := Nat.mul_pos (by decide) unitsPerOne_pos
  calc 2 * (coefficient * unitsPerOne) = coefficient * (2 * unitsPerOne) :=
        Nat.mul_left_comm 2 coefficient unitsPerOne
    _ < 2 ^ (coefficient.log2 + 1) * (2 * unitsPerOne) :=
      Nat.mul_lt_mul_of_pos_right Nat.lt_log2_self hp
    _ = 2 ^ (coefficient.log2 + 1 + (unitPlaces + 1)) := by
      rw [Nat.pow_add 2 (coefficient.log2 + 1), Nat.pow_succ 2 unitPlaces,
        Nat.mul_comm (2 ^ unitPlaces), unitsPerOne]
    _ ≤ 2 ^ (3 * places) := Nat.pow_le_pow_right (by decide) (by omega)
    _ ≤ 10 ^ places := two_pow_le_ten_pow places

/-- The shortcuts for very large and very small decimals give what rounding would give. -/
theorem toBinary64_eq_ofRatio (d : Decimal) :
    d.toBinary64 = ofRatio d.negative (d.numerator * unitsPerOne) d.denominator := by
  obtain ⟨negative, coefficient, exponent⟩ := d
  simp only [toBinary64, numerator, denominator]
  split
  · rename_i hc
    rw [hc, Nat.zero_mul, Nat.zero_mul, ofRatio_zero]
  rename_i hc
  split
  · rename_i he
    have hd : (-exponent).toNat = 0 := by omega
    rw [hd, Nat.pow_zero]
    exact (ofRatio_of_two_pow_le negative (two_pow_le_of_large hc (by omega))).symm
  split
  · rename_i he hs
    have hd : exponent.toNat = 0 := by omega
    rw [hd, Nat.pow_zero, Nat.mul_one]
    exact (ofRatio_of_double_lt negative (double_lt_of_small (by omega))).symm
  split
  · rename_i he
    have hd : (-exponent).toNat = 0 := by omega
    rw [hd, Nat.pow_zero]
  · rename_i he
    have hd : exponent.toNat = 0 := by omega
    rw [hd, Nat.pow_zero, Nat.mul_one]

theorem toBinary64_congr {d d' : Decimal} (hs : d.negative = d'.negative)
    (hv : d.numerator * d'.denominator = d'.numerator * d.denominator) :
    d.toBinary64 = d'.toBinary64 := by
  rw [toBinary64_eq_ofRatio, toBinary64_eq_ofRatio, hs]
  apply ofRatio_congr _ d.denominator_pos d'.denominator_pos
  rw [Nat.mul_right_comm, hv, Nat.mul_right_comm]

theorem toBinary64_with_sign {d : Decimal} {rank : Fin (2047 * 2 ^ (52 : Nat))}
    (h : ReadsAs d rank) (hd : d.negative = false) (negative : Bool) :
    { d with negative }.toBinary64 = .finite negative rank := by
  rw [ReadsAs, toBinary64_eq_ofRatio, hd] at h
  rw [toBinary64_eq_ofRatio]
  exact ofRatio_eq_finite h negative

end Decimal

namespace Binary64

theorem readsAs_exactDecimal (rank : Fin (2047 * 2 ^ (52 : Nat))) :
    ReadsAs (exactDecimal rank) rank := by
  have hn : (exactDecimal rank).numerator = unitsOfRank rank * 5 ^ unitPlaces := by
    have he : (-(unitPlaces : Int)).toNat = 0 := by omega
    rw [Decimal.numerator, exactDecimal, he, Nat.pow_zero, Nat.mul_one]
  have hd : (exactDecimal rank).denominator = 10 ^ unitPlaces := by
    have he : (- -(unitPlaces : Int)).toNat = unitPlaces := by omega
    rw [Decimal.denominator, exactDecimal, he]
  have hten : 5 ^ unitPlaces * unitsPerOne = 10 ^ unitPlaces := by
    rw [unitsPerOne, ← Nat.mul_pow]
  have hp : 0 < 10 ^ unitPlaces := Nat.pow_pos (by decide)
  rw [ReadsAs, Decimal.toBinary64_eq_ofRatio, hn, hd, Nat.mul_assoc, hten]
  have hr := ofRatio_mul_mul false (unitsOfRank rank) 1 hp
  rw [Nat.one_mul] at hr
  exact hr.trans (ofRatio_unitsOfRank false rank)

theorem negative_of_neighbour? {rank : Fin (2047 * 2 ^ (52 : Nat))} {place : Int} {d : Decimal}
    (h : neighbour? rank place = some d) : d.negative = false := by
  simp only [neighbour?] at h
  split at h
  · split at h
    · cases h
      split <;> rfl
    · cases h
      rfl
  · split at h
    · cases h
      rfl
    · cases h

theorem shortestDecimal_cases (rank : Fin (2047 * 2 ^ (52 : Nat))) :
    (∃ place, neighbour? rank place = some (shortestDecimal rank)) ∨
      shortestDecimal rank = exactDecimal rank := by
  rw [shortestDecimal]
  cases hf : (List.range 17).findSome? fun (digits : Nat) =>
      neighbour? rank (leadingPlace rank - digits) with
  | none => exact .inr rfl
  | some d =>
    obtain ⟨digits, -, hn⟩ := List.exists_of_findSome?_eq_some hf
    exact .inl ⟨_, hn⟩

theorem toBinary64_shortestDecimal (negative : Bool) (rank : Fin (2047 * 2 ^ (52 : Nat))) :
    { shortestDecimal rank with negative }.toBinary64 = .finite negative rank := by
  rcases shortestDecimal_cases rank with ⟨place, hn⟩ | he
  · exact Decimal.toBinary64_with_sign (readsAs_of_neighbour? hn) (negative_of_neighbour? hn) _
  · rw [he]
    exact Decimal.toBinary64_with_sign (readsAs_exactDecimal rank) rfl negative

end Binary64

end LispCalc
