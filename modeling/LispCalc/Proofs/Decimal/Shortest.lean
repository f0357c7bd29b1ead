import LispCalc.Proofs.Decimal.Nearest

namespace LispCalc

-- Powers of natural numbers are those of the core library, whatever else is imported.
attribute [local instance (high)] instPowNat

/-- A decimal fraction of at most `k` digits, the zeros around them not counted; there is always
one digit. -/
def HasDigits (q : ℚ) (k : Nat) : Prop :=
  0 < k ∧ ∃ n place : Int, n.natAbs < 10 ^ k ∧ q = n * 10 ^ place

/-- Among the decimal fractions that are rounded to `x`, `q` has the fewest digits, and among
those with that many it is nearest to `v`. -/
structure IsShortest (v q : ℚ) (x : Binary64) (k : Nat) : Prop where
  digits : HasDigits q k
  rounds : x.IsNearest q
  fewest : ∀ q' l, HasDigits q' l → x.IsNearest q' → k ≤ l
  nearest : ∀ q', HasDigits q' k → x.IsNearest q' → |v - q| ≤ |v - q'|

theorem HasDigits.neg {q : ℚ} {k : Nat} (h : HasDigits q k) : HasDigits (-q) k := by
  obtain ⟨hk, n, place, hn, rfl⟩ := h
  exact ⟨hk, -n, place, by rwa [Int.natAbs_neg], by rw [Int.cast_neg, neg_mul]⟩

theorem IsShortest.neg {v q : ℚ} {x : Binary64} {k : Nat} (h : IsShortest v q x k) :
    IsShortest (-v) (-q) x.neg k := by
  have hback {q' : ℚ} (hq' : x.neg.IsNearest q') : x.IsNearest (-q') := by
    rw [← x.neg_involutive]
    exact hq'.neg
  refine ⟨h.digits.neg, h.rounds.neg, fun q' l hl hq' => h.fewest _ l hl.neg (hback hq'),
    fun q' hq hq' => ?_⟩
  rw [Binary64.abs_neg_sub, Binary64.abs_neg_sub, neg_neg]
  exact h.nearest _ hq.neg (hback hq')

theorem HasDigits.exists_nat {q : ℚ} {k : Nat} (h : HasDigits q k) (hq : 0 ≤ q) :
    ∃ (n : Nat) (place : Int), n < 10 ^ k ∧ q = n * 10 ^ place := by
  obtain ⟨-, n, place, hn, he⟩ := h
  refine ⟨n.natAbs, place, hn, ?_⟩
  rw [← abs_of_nonneg hq, he, abs_mul, abs_of_pos (ten_zpow_pos place), Nat.cast_natAbs,
    Int.cast_abs]

/-- A fraction of `digits + 1` digits is a multiple of any power of ten with that many digits
behind its place, or not greater than the power itself. -/
theorem HasDigits.multiple_or_le {q : ℚ} {digits : Nat} (h : HasDigits q (digits + 1)) (hq : 0 ≤ q)
    (leading : Int) : (∃ n : Nat, q = n * 10 ^ (leading - digits)) ∨ q ≤ 10 ^ leading := by
  obtain ⟨n, place, hn, rfl⟩ := h.exists_nat hq
  by_cases hp : leading - digits ≤ place
  · obtain ⟨k, rfl⟩ := Int.le.dest hp
    refine .inl ⟨n * 10 ^ k, ?_⟩
    rw [ten_zpow_add, ← mul_assoc, Nat.cast_mul, Nat.cast_pow]
    rfl
  · right
    calc (n : ℚ) * 10 ^ place ≤ 10 ^ (digits + 1) * 10 ^ place :=
          mul_le_mul_of_nonneg_right (by exact_mod_cast hn.le) (ten_zpow_pos place).le
      _ = 10 ^ (place + (digits + 1 : Nat)) := (ten_zpow_add place (digits + 1)).symm
      _ ≤ 10 ^ leading := zpow_le_zpow_right₀ (by norm_num) (by omega)

namespace Binary64

/-- How often a power of ten goes into a magnitude. -/
def timesAt (rank : Nat) (place : Int) : Nat :=
  unitsOfRank rank * 10 ^ (-place).toNat / (unitsPerOne * 10 ^ place.toNat)

theorem exists_rest (rank : Nat) (place : Int) :
    ∃ rest : ℚ, 0 ≤ rest ∧ rest < 1 ∧ magnitude rank = (timesAt rank place + rest) * 10 ^ place ∧
      (2 * (unitsOfRank rank * 10 ^ (-place).toNat % (unitsPerOne * 10 ^ place.toNat)) <
        unitsPerOne * 10 ^ place.toNat ↔ 2 * rest < 1) := by
  have hd : 0 < unitsPerOne * 10 ^ place.toNat :=
    Nat.mul_pos unitsPerOne_pos (Nat.pow_pos (by decide))
  have hm : magnitude rank = (unitsOfRank rank * 10 ^ (-place).toNat : Nat) /
      (unitsPerOne * 10 ^ place.toNat : Nat) * 10 ^ place := by
    have hu := ne_of_gt unitsPerOne_pos_rat
    rw [magnitude, ten_zpow_eq]
    push_cast
    field_simp
  rw [hm, timesAt]
  have hdiv := Nat.div_add_mod (unitsOfRank rank * 10 ^ (-place).toNat)
    (unitsPerOne * 10 ^ place.toNat)
  have hmod := Nat.mod_lt (unitsOfRank rank * 10 ^ (-place).toNat) hd
  generalize unitsOfRank rank * 10 ^ (-place).toNat = num at *
  generalize unitsPerOne * 10 ^ place.toNat = den at *
  have hdq : (0 : ℚ) < den := Nat.cast_pos.mpr hd
  refine ⟨(num % den : Nat) / den, by positivity, ?_, ?_, ?_⟩
  · rw [div_lt_one hdq]
    exact Nat.cast_lt.mpr hmod
  · have hn : (num : ℚ) = den * (num / den : Nat) + (num % den : Nat) := by exact_mod_cast hdiv.symm
    congr 1
    rw [div_eq_iff (ne_of_gt hdq), add_mul, div_mul_cancel₀ _ (ne_of_gt hdq)]
    linarith
  · rw [← mul_div_assoc, div_lt_one hdq]
    exact_mod_cast Iff.rfl

variable {rank : Fin (2047 * 2 ^ (52 : Nat))} {place : Int}

theorem neighbour?_eq (rank : Fin (2047 * 2 ^ (52 : Nat))) (place : Int) :
    neighbour? rank place =
      if ReadsAs ⟨false, timesAt rank place, place⟩ rank then
        if ReadsAs ⟨false, timesAt rank place + 1, place⟩ rank then
          some (if 2 * (unitsOfRank rank * 10 ^ (-place).toNat % (unitsPerOne * 10 ^ place.toNat)) <
              unitsPerOne * 10 ^ place.toNat then ⟨false, timesAt rank place, place⟩
            else ⟨false, timesAt rank place + 1, place⟩)
        else some ⟨false, timesAt rank place, place⟩
      else if ReadsAs ⟨false, timesAt rank place + 1, place⟩ rank then
        some ⟨false, timesAt rank place + 1, place⟩
      else none := rfl

theorem exists_nearer (h : ReadsAs ⟨false, timesAt rank place, place⟩ rank ∨
      ReadsAs ⟨false, timesAt rank place + 1, place⟩ rank) :
    ∃ d, neighbour? rank place = some d ∧
      (ReadsAs ⟨false, timesAt rank place, place⟩ rank →
        |magnitude rank - d.value| ≤ |magnitude rank - timesAt rank place * 10 ^ place|) ∧
      (ReadsAs ⟨false, timesAt rank place + 1, place⟩ rank →
        |magnitude rank - d.value| ≤ |magnitude rank - (timesAt rank place + 1) * 10 ^ place|) := by
  obtain ⟨rest, h0, h1, hm, hhalf⟩ := exists_rest rank place
  have hp := ten_zpow_pos place
  have hbelow : |magnitude rank - timesAt rank place * 10 ^ place| = rest * 10 ^ place := by
    rw [hm, ← sub_mul, add_sub_cancel_left, abs_mul, abs_of_nonneg h0, abs_of_pos hp]
  have habove : |magnitude rank - (timesAt rank place + 1) * 10 ^ place| =
      (1 - rest) * 10 ^ place := by
    rw [hm, ← sub_mul, abs_mul, abs_of_pos hp, add_sub_add_left_eq_sub, abs_sub_comm,
      abs_of_pos (sub_pos.mpr h1)]
  have hvalue (n : Nat) : Decimal.value ⟨false, n, place⟩ = n * 10 ^ place :=
    Decimal.value_of_not_negative rfl
  rw [neighbour?_eq]
  by_cases hb : ReadsAs ⟨false, timesAt rank place, place⟩ rank
  · rw [if_pos hb]
    split
    · refine ⟨_, rfl, ?_⟩
      split
      · rename_i hh
        rw [hvalue, hbelow, habove]
        exact ⟨fun _ => le_refl _,
          fun _ => mul_le_mul_of_nonneg_right (by linarith [hhalf.mp hh]) hp.le⟩
      · rename_i hh
        rw [hvalue, Nat.cast_succ, hbelow, habove]
        exact ⟨fun _ =>
            mul_le_mul_of_nonneg_right (by linarith [not_lt.mp (mt hhalf.mpr hh)]) hp.le,
          fun _ => le_refl _⟩
    · rename_i ha
      exact ⟨_, rfl, fun _ => by rw [hvalue], fun h => absurd h ha⟩
  · have ha := h.resolve_left hb
    rw [if_neg hb, if_pos ha]
    exact ⟨_, rfl, fun h => absurd h hb, fun _ => by rw [hvalue, Nat.cast_succ]⟩

/-- Where a multiple of a power of ten reads back, so does one of the value's two neighbours, and
the one found is no farther. -/
theorem exists_neighbour? {n : Nat} (h : IsNearest (n * 10 ^ place) (.finite false rank)) :
    ∃ d, neighbour? rank place = some d ∧
      |magnitude rank - d.value| ≤ |magnitude rank - n * 10 ^ place| := by
  obtain ⟨rest, h0, h1, hm, -⟩ := exists_rest rank place
  have hself := isNearest_magnitude rank
  have hmul {a b : ℚ} (hab : a ≤ b) : a * 10 ^ place ≤ b * 10 ^ place :=
    mul_le_mul_of_nonneg_right hab (ten_zpow_pos place).le
  by_cases hn : n ≤ timesAt rank place
  · have hle : (n : ℚ) * 10 ^ place ≤ timesAt rank place * 10 ^ place := hmul (Nat.cast_le.mpr hn)
    have hge : timesAt rank place * 10 ^ place ≤ magnitude rank := by
      rw [hm]
      exact hmul (by linarith)
    have hb : ReadsAs ⟨false, timesAt rank place, place⟩ rank := by
      rw [Decimal.readsAs_iff rfl, Decimal.value_of_not_negative rfl]
      exact h.between hself hle hge
    obtain ⟨d, hd, hnear, -⟩ := exists_nearer (.inl hb)
    refine ⟨d, hd, (hnear hb).trans ?_⟩
    rw [abs_of_nonneg (sub_nonneg.mpr hge), abs_of_nonneg (sub_nonneg.mpr (hle.trans hge))]
    exact sub_le_sub_left hle _
  · have hle : (timesAt rank place + 1 : ℚ) * 10 ^ place ≤ n * 10 ^ place :=
      hmul (by exact_mod_cast Nat.lt_of_not_le hn)
    have hge : magnitude rank ≤ (timesAt rank place + 1) * 10 ^ place := by
      rw [hm]
      exact hmul (by linarith)
    have ha : ReadsAs ⟨false, timesAt rank place + 1, place⟩ rank := by
      rw [Decimal.readsAs_iff rfl, Decimal.value_of_not_negative rfl, Nat.cast_succ]
      exact hself.between h hge hle
    obtain ⟨d, hd, -, hnear⟩ := exists_nearer (.inr ha)
    refine ⟨d, hd, (hnear ha).trans ?_⟩
    rw [abs_of_nonpos (sub_nonpos.mpr hge), abs_of_nonpos (sub_nonpos.mpr (hge.trans hle))]
    exact neg_le_neg (sub_le_sub_left hle _)

theorem exists_length_toDigits {n : Nat} (hn : 0 < n) :
    ∃ k, (Nat.toDigits 10 n).length = k + 1 ∧ 10 ^ k ≤ n ∧ n < 10 ^ (k + 1) := by
  obtain ⟨k, hk⟩ := Nat.exists_eq_add_one_of_ne_zero
    (Nat.ne_of_gt (Nat.length_toDigits_pos : 0 < (Nat.toDigits 10 n).length))
  refine ⟨k, hk, ?_, (Nat.length_toDigits_le_iff (by decide) (Nat.succ_pos k)).mp hk.le⟩
  rcases Nat.eq_zero_or_pos k with rfl | hpos
  · exact hn
  · rw [← Nat.not_lt, ← Nat.length_toDigits_le_iff (by decide) hpos, hk]
    exact Nat.not_succ_le_self k

theorem mul_ten_pow_ne_unitsPerOne {units k : Nat} (h : units ≠ unitsPerOne) :
    units * 10 ^ k ≠ unitsPerOne := by
  intro he
  cases k with
  | zero => exact h (by rw [← he, Nat.pow_zero, Nat.mul_one])
  | succ k =>
    have hd : 5 ∣ 2 ^ unitPlaces := by
      rw [← unitsPerOne, ← he, Nat.pow_succ]
      exact Dvd.intro_left (units * 10 ^ k * 2) (by ring)
    have hc : Nat.Coprime 5 (2 ^ unitPlaces) := Nat.Coprime.pow_right _ (by decide)
    exact absurd (hc.eq_one_of_dvd hd) (by decide)

theorem leadingPlace_spec (h : rank.val ≠ 0) :
    (10 : ℚ) ^ leadingPlace rank ≤ magnitude rank ∧
      magnitude rank < 10 ^ (leadingPlace rank + 1) := by
  have hu := unitsPerOne_pos_rat
  have hpos : 0 < unitsOfRank rank := by
    exact Nat.lt_of_lt_of_le (unitsOfRank_lt_succ 0) (unitsOfRank_le (Nat.pos_of_ne_zero h))
  simp only [leadingPlace]
  split
  · rename_i hle
    obtain ⟨k, hk, hl, hr⟩ := exists_length_toDigits (Nat.div_pos hle unitsPerOne_pos)
    rw [Nat.le_div_iff_mul_le unitsPerOne_pos] at hl
    rw [Nat.div_lt_iff_lt_mul unitsPerOne_pos] at hr
    rw [hk, Nat.cast_succ, add_sub_cancel_right, magnitude, le_div_iff₀ hu, div_lt_iff₀ hu]
    exact ⟨by exact_mod_cast hl, by exact_mod_cast hr⟩
  · rename_i hlt
    obtain ⟨k, hk, hl, hr⟩ := exists_length_toDigits (Nat.div_pos (Nat.not_le.mp hlt).le hpos)
    rw [Nat.le_div_iff_mul_le hpos] at hl
    rw [Nat.div_lt_iff_lt_mul hpos] at hr
    have hlt' : 10 ^ k * unitsOfRank rank < unitsPerOne := by
      refine Nat.lt_of_le_of_ne hl ?_
      rw [Nat.mul_comm]
      exact mul_ten_pow_ne_unitsPerOne fun he => hlt he.ge
    rw [hk, Nat.cast_succ, show -((k : Int) + 1) + 1 = -k by omega, magnitude, le_div_iff₀ hu,
      div_lt_iff₀ hu, zpow_neg, zpow_neg, inv_mul_le_iff₀ (ten_zpow_pos _),
      lt_inv_mul_iff₀ (ten_zpow_pos _)]
    exact ⟨by exact_mod_cast hr.le, by exact_mod_cast hlt'⟩

/-- Seventeen digits suffice: their last place is finer than a half of the last bit. -/
theorem exists_seventeen (rank : Fin (2047 * 2 ^ (52 : Nat))) :
    ∃ n : Nat, IsNearest (n * 10 ^ (leadingPlace rank - (16 : Nat))) (.finite false rank) := by
  by_cases hz : rank.val = 0
  · have h := isNearest_magnitude rank
    rw [hz, magnitude_zero] at h
    exact ⟨0, by rwa [Nat.cast_zero, zero_mul]⟩
  obtain ⟨hl, -⟩ := leadingPlace_spec hz
  obtain ⟨rest, h0, h1, hm, -⟩ := exists_rest rank (leadingPlace rank - (16 : Nat))
  rw [ten_zpow_eq_mul (leadingPlace rank) 16] at hl
  have hp := ten_zpow_pos (leadingPlace rank - (16 : Nat))
  generalize (10 : ℚ) ^ (leadingPlace rank - (16 : Nat)) = s at *
  generalize timesAt rank (leadingPlace rank - (16 : Nat)) = n at *
  have hnear {n' : Nat} (h : 2 * |(n' : ℚ) - (n + rest)| ≤ 1) :
      IsNearest (n' * s) (.finite false rank) := by
    apply isNearest_of_near
    have hs := mul_le_mul_of_nonneg_right h hp.le
    rw [hm, ← sub_mul, abs_mul, abs_of_pos hp, ← hm]
    linarith
  by_cases hh : 2 * rest < 1
  · refine ⟨n, hnear ?_⟩
    rw [sub_add_cancel_left, abs_neg, abs_of_nonneg h0]
    exact hh.le
  · refine ⟨n + 1, hnear ?_⟩
    rw [Nat.cast_succ, add_sub_add_left_eq_sub, abs_of_pos (sub_pos.mpr h1)]
    linarith

theorem exists_neighbour?_of_hasDigits {q : ℚ} {digits : Nat} (hd : HasDigits q (digits + 1))
    (hq : IsNearest q (.finite false rank)) :
    ∃ d, neighbour? rank (leadingPlace rank - digits) = some d ∧
      |magnitude rank - d.value| ≤ |magnitude rank - q| := by
  have hself := isNearest_magnitude rank
  by_cases hz : rank.val = 0
  · have h : IsNearest ((0 : Nat) * 10 ^ (leadingPlace rank - digits)) (.finite false rank) := by
      rwa [Nat.cast_zero, zero_mul, ← magnitude_zero, ← hz]
    obtain ⟨d, hd, hnear⟩ := exists_neighbour? h
    rw [hz, magnitude_zero, Nat.cast_zero, zero_mul, sub_self, abs_zero] at hnear
    rw [hz, magnitude_zero]
    exact ⟨d, hd, hnear.trans (abs_nonneg _)⟩
  rcases hd.multiple_or_le hq.nonneg (leadingPlace rank) with ⟨n, rfl⟩ | hle
  · exact exists_neighbour? hq
  · -- The leading power of ten lies between the fraction and the magnitude, so it reads back too.
    obtain ⟨hl, -⟩ := leadingPlace_spec hz
    have h := hq.between hself hle hl
    have hpower : (10 : ℚ) ^ leadingPlace rank =
        (10 ^ digits : Nat) * 10 ^ (leadingPlace rank - digits) := by
      rw [ten_zpow_eq_mul (leadingPlace rank) digits, Nat.cast_pow]
      rfl
    rw [hpower] at h
    obtain ⟨d, hd, hnear⟩ := exists_neighbour? h
    refine ⟨d, hd, hnear.trans ?_⟩
    rw [← hpower, abs_of_nonneg (sub_nonneg.mpr hl), abs_of_nonneg (sub_nonneg.mpr (hle.trans hl))]
    exact sub_le_sub_left hle _

theorem timesAt_lt (rank : Fin (2047 * 2 ^ (52 : Nat))) (digits : Nat) :
    timesAt rank (leadingPlace rank - digits) < 10 ^ (digits + 1) := by
  by_cases hz : rank.val = 0
  · rw [timesAt, hz, show unitsOfRank 0 = 0 from rfl, Nat.zero_mul, Nat.zero_div]
    exact Nat.pow_pos (by decide)
  obtain ⟨-, hr⟩ := leadingPlace_spec hz
  obtain ⟨rest, h0, -, hm, -⟩ := exists_rest rank (leadingPlace rank - digits)
  have hten := ten_zpow_add (leadingPlace rank - digits) (digits + 1)
  rw [Nat.cast_succ, ← add_assoc, sub_add_cancel] at hten
  rw [hten, hm] at hr
  have hlt := lt_of_mul_lt_mul_right hr (ten_zpow_pos _).le
  have ht : (timesAt rank (leadingPlace rank - digits) : ℚ) < (10 ^ (digits + 1) : Nat) := by
    rw [Nat.cast_pow]
    exact lt_of_le_of_lt (le_add_of_nonneg_right h0) hlt
  exact Nat.cast_lt.mp ht

theorem neighbour?_cases {d : Decimal} (h : neighbour? rank place = some d) :
    d = ⟨false, timesAt rank place, place⟩ ∨ d = ⟨false, timesAt rank place + 1, place⟩ := by
  rw [neighbour?_eq] at h
  split at h
  · split at h
    · cases h
      split
      · exact .inl rfl
      · exact .inr rfl
    · cases h
      exact .inl rfl
  · split at h
    · cases h
      exact .inr rfl
    · cases h

theorem hasDigits_of_neighbour? {digits : Nat} {d : Decimal}
    (h : neighbour? rank (leadingPlace rank - digits) = some d) :
    HasDigits d.value (digits + 1) := by
  have ht := timesAt_lt rank digits
  refine ⟨Nat.succ_pos _, ?_⟩
  rcases neighbour?_cases h with rfl | rfl
  · exact ⟨timesAt rank (leadingPlace rank - digits), _, ht, Decimal.value_of_not_negative rfl⟩
  rw [Decimal.value_of_not_negative rfl]
  by_cases hn : timesAt rank (leadingPlace rank - digits) + 1 < 10 ^ (digits + 1)
  · exact ⟨(timesAt rank (leadingPlace rank - digits) + 1 : Nat), _, hn, rfl⟩
  · -- One more than all nines is a power of ten.
    refine ⟨1, leadingPlace rank - digits + (digits + 1 : Nat),
      Nat.one_lt_pow (by omega) (by decide), ?_⟩
    rw [ten_zpow_add,
      show timesAt rank (leadingPlace rank - digits) + 1 = 10 ^ (digits + 1) by omega,
      Nat.cast_pow, Int.cast_one, one_mul]
    rfl

theorem findSome?_range {α : Type} {f : Nat → Option α} {n i : Nat} (hi : i < n)
    (hf : (f i).isSome) :
    ∃ first a, (List.range n).findSome? f = some a ∧ f first = some a ∧
      ∀ j < first, f j = none := by
  obtain ⟨a, ha⟩ : ∃ a, (List.range n).findSome? f = some a := by
    rw [← Option.isSome_iff_exists, List.findSome?_isSome_iff]
    exact ⟨i, List.mem_range.mpr hi, hf⟩
  obtain ⟨before, first, behind, hsplit, hfirst, hnone⟩ := List.findSome?_eq_some_iff.mp ha
  refine ⟨first, a, ha, hfirst, fun j hj => hnone j ?_⟩
  -- The range increases, so what is less than an element stands before it.
  have hp := List.pairwise_lt_range (n := n)
  have hm : first ∈ List.range n := by
    rw [hsplit]
    exact List.mem_append_right _ List.mem_cons_self
  have hj' : j ∈ List.range n := List.mem_range.mpr (Nat.lt_trans hj (List.mem_range.mp hm))
  rw [hsplit] at hp hj'
  rcases List.mem_append.mp hj' with hb | hb
  · exact hb
  rcases List.mem_cons.mp hb with rfl | hb
  · exact absurd hj (Nat.lt_irrefl _)
  · have hlt := List.rel_of_pairwise_cons (List.pairwise_append.mp hp).2.1 hb
    exact absurd hj (Nat.lt_asymm hlt)

theorem exists_first_neighbour (rank : Fin (2047 * 2 ^ (52 : Nat))) :
    ∃ digits : Nat, neighbour? rank (leadingPlace rank - digits) = some (shortestDecimal rank) ∧
      ∀ fewer < digits, neighbour? rank (leadingPlace rank - (fewer : Nat)) = none := by
  obtain ⟨n, hn⟩ := exists_seventeen rank
  obtain ⟨d, hd, -⟩ := exists_neighbour? hn
  obtain ⟨first, a, hfind, hfirst, hnone⟩ := findSome?_range
    (f := fun (digits : Nat) => neighbour? rank (leadingPlace rank - digits)) (n := 17) (i := 16)
    (by decide) (by rw [hd]; rfl)
  refine ⟨first, ?_, hnone⟩
  rw [shortestDecimal, hfind]
  exact hfirst

theorem exists_isShortest_magnitude (rank : Fin (2047 * 2 ^ (52 : Nat))) :
    ∃ k, IsShortest (magnitude rank) (shortestDecimal rank).value (.finite false rank) k := by
  obtain ⟨digits, hd, hnone⟩ := exists_first_neighbour rank
  have hn := negative_of_neighbour? hd
  refine ⟨digits + 1, hasDigits_of_neighbour? hd,
    (Decimal.readsAs_iff hn).mp (readsAs_of_neighbour? hd), fun q' l hl hq' => ?_,
    fun q' hq hq' => ?_⟩
  · obtain ⟨fewer, rfl⟩ := Nat.exists_eq_add_one_of_ne_zero (Nat.ne_of_gt hl.1)
    obtain ⟨d, hf, -⟩ := exists_neighbour?_of_hasDigits hl hq'
    by_contra hlt
    rw [hnone fewer (by omega)] at hf
    cases hf
  · obtain ⟨d, hf, hnear⟩ := exists_neighbour?_of_hasDigits hq hq'
    rw [hd] at hf
    cases hf
    exact hnear

theorem exists_isShortest (negative : Bool) (rank : Fin (2047 * 2 ^ (52 : Nat))) :
    ∃ k, IsShortest (signedBy negative (magnitude rank))
      (Decimal.value { shortestDecimal rank with negative }) (.finite negative rank) k := by
  obtain ⟨digits, hd, -⟩ := exists_first_neighbour rank
  obtain ⟨k, h⟩ := exists_isShortest_magnitude rank
  rw [Decimal.value_of_not_negative (negative_of_neighbour? hd)] at h
  cases negative with
  | false => exact ⟨k, h⟩
  | true => exact ⟨k, h.neg⟩

end Binary64

end LispCalc
