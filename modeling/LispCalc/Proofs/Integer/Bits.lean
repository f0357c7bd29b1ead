import Mathlib.Data.Int.Bitwise

namespace LispCalc

/-- The integer needs no more than the given number of bits and a sign. -/
def Fits (bits : Nat) (n : Int) : Prop :=
  -2 ^ bits ≤ n ∧ n < 2 ^ bits

instance (bits : Nat) (n : Int) : Decidable (Fits bits n) :=
  inferInstanceAs (Decidable (_ ∧ _))

theorem Fits.of_le {bits bits' : Nat} {n : Int} (h : Fits bits n) (hb : bits ≤ bits') :
    Fits bits' n := by
  have hp : (2 : Int) ^ bits ≤ 2 ^ bits' := by
    exact_mod_cast Nat.pow_le_pow_right (by decide : 0 < 2) hb
  obtain ⟨hl, hu⟩ := h
  constructor
  · omega
  · omega

theorem Fits.natAbs_le {bits : Nat} {n : Int} (h : Fits bits n) : n.natAbs ≤ 2 ^ bits := by
  have hp : (2 ^ bits : Int) = (2 ^ bits : Nat) := by push_cast; rfl
  rw [Fits, hp] at h
  omega

theorem testBit_of_lt {m bits k : Nat} (hm : m < 2 ^ bits) (hk : bits ≤ k) : m.testBit k = false :=
  Nat.testBit_lt_two_pow (Nat.lt_of_lt_of_le hm (Nat.pow_le_pow_right (by decide) hk))

theorem exists_testBit (n : Int) : ∃ (m : Nat) (negative : Bool),
    (∀ k, n.testBit k = (negative ^^ m.testBit k)) ∧ ∀ bits, Fits bits n ↔ m < 2 ^ bits := by
  cases n with
  | ofNat m =>
    refine ⟨m, false, fun k => (Bool.false_xor _).symm, fun bits => ?_⟩
    have hp : (2 ^ bits : Int) = (2 ^ bits : Nat) := by push_cast; rfl
    rw [Fits, hp, Int.ofNat_eq_natCast]
    omega
  | negSucc m =>
    refine ⟨m, true, fun k => (Bool.true_xor _).symm, fun bits => ?_⟩
    have hp : (2 ^ bits : Int) = (2 ^ bits : Nat) := by push_cast; rfl
    rw [Fits, hp]
    omega

theorem fits_iff_testBit {bits : Nat} {n : Int} :
    Fits bits n ↔ ∃ sign, ∀ k, bits ≤ k → n.testBit k = sign := by
  obtain ⟨m, negative, ht, hf⟩ := exists_testBit n
  rw [hf]
  constructor
  · intro hm
    refine ⟨negative, fun k hk => ?_⟩
    rw [ht, testBit_of_lt hm hk, Bool.xor_false]
  · rintro ⟨sign, hs⟩
    -- Far enough up only the sign is left, so the repeated bit is the sign.
    have hsign : sign = negative := by
      have hk := hs (max bits m) (Nat.le_max_left _ _)
      rw [ht, testBit_of_lt Nat.lt_two_pow_self (Nat.le_max_right bits m), Bool.xor_false] at hk
      exact hk.symm
    apply Nat.lt_pow_two_of_testBit
    intro k hk
    have hb := hs k hk
    rw [ht, hsign] at hb
    cases negative <;> simpa using hb

theorem eq_of_testBit_eq {m n : Int} (h : ∀ k, m.testBit k = n.testBit k) : m = n := by
  have hmixed (a b : Nat) : ¬ ∀ k, a.testBit k = !b.testBit k := by
    intro hk
    have hab := hk (max a b)
    rw [testBit_of_lt Nat.lt_two_pow_self (Nat.le_max_left a b),
      testBit_of_lt Nat.lt_two_pow_self (Nat.le_max_right a b)] at hab
    cases hab
  cases m with
  | ofNat a =>
    cases n with
    | ofNat b => exact congrArg Int.ofNat (Nat.eq_of_testBit_eq h)
    | negSucc b => exact (hmixed a b h).elim
  | negSucc a =>
    cases n with
    | ofNat b => exact (hmixed b a fun k => (h k).symm).elim
    | negSucc b =>
      exact congrArg Int.negSucc (Nat.eq_of_testBit_eq fun k => Bool.not_inj (h k))

/-- An operation that works bit by bit needs no more bits than its operands. -/
theorem Fits.bitwise {bits : Nat} {a b c : Int} {f : Bool → Bool → Bool} (ha : Fits bits a)
    (hb : Fits bits b) (hc : ∀ k, c.testBit k = f (a.testBit k) (b.testBit k)) : Fits bits c := by
  obtain ⟨s, hs⟩ := fits_iff_testBit.mp ha
  obtain ⟨t, ht⟩ := fits_iff_testBit.mp hb
  exact fits_iff_testBit.mpr ⟨f s t, fun k hk => by rw [hc, hs k hk, ht k hk]⟩

theorem Fits.toward_zero {bits : Nat} {a c : Int} (ha : Fits bits a) (hl : a ≤ c ∨ 0 ≤ c)
    (hu : c ≤ a ∨ c ≤ 0) : Fits bits c := by
  have hp : (0 : Int) < 2 ^ bits := Int.pow_pos (by decide)
  obtain ⟨hal, hau⟩ := ha
  constructor
  · omega
  · omega

theorem Fits.tmod {bits : Nat} {a : Int} (ha : Fits bits a) (b : Int) : Fits bits (a.tmod b) := by
  have hle : (a.tmod b).natAbs ≤ a.natAbs := by
    rw [Int.natAbs_tmod]
    exact Nat.mod_le _ _
  rcases Int.le_total 0 a with h | h
  · have hr := Int.tmod_nonneg b h
    exact ha.toward_zero (by omega) (by omega)
  · have hr := Int.tmod_nonneg b (Int.neg_nonneg_of_nonpos h)
    rw [Int.neg_tmod] at hr
    exact ha.toward_zero (by omega) (by omega)

theorem Fits.ediv {bits : Nat} {a p : Int} (ha : Fits bits a) (hp : 0 < p) : Fits bits (a / p) := by
  rcases Int.le_total 0 a with h | h
  · exact ha.toward_zero (.inr (Int.ediv_nonneg h (Int.le_of_lt hp))) (.inl (Int.ediv_le_self p h))
  · have hm : a * p ≤ a * 1 := Int.mul_le_mul_of_nonpos_left h hp
    rw [Int.mul_one, ← Int.le_ediv_iff_mul_le hp] at hm
    exact ha.toward_zero (.inl hm) (.inr (Int.ediv_nonpos_of_nonpos_of_neg h hp))

theorem testBit_toInt {w : Nat} (x : BitVec w) (k : Nat) :
    x.toInt.testBit k = if k < w then x.getLsbD k else x.msb := by
  have hx := x.isLt
  rw [BitVec.toInt_eq_msb_cond]
  split
  · rename_i hm
    have hn : (x.toNat : Int) - (2 ^ w : Nat) = Int.negSucc (2 ^ w - (x.toNat + 1)) := by omega
    rw [hn, Int.testBit, Nat.testBit_two_pow_sub_succ hx, BitVec.testBit_toNat]
    split <;> rename_i hk <;> simp [hk, hm]
  · rename_i hm
    change x.toNat.testBit k = _
    rw [BitVec.testBit_toNat]
    split
    · rfl
    · rename_i hk
      rw [BitVec.getLsbD_of_ge x k (Nat.not_lt.mp hk), Bool.eq_false_of_not_eq_true hm]

/-- A word whose bits are made of those of two others stands for the integer made so. -/
theorem toInt_bitwise {w : Nat} {x y z : BitVec w} {c : Int} {f : Bool → Bool → Bool}
    (hz : ∀ k < w, z.getLsbD k = f (x.getLsbD k) (y.getLsbD k)) (hm : z.msb = f x.msb y.msb)
    (hc : ∀ k, c.testBit k = f (x.toInt.testBit k) (y.toInt.testBit k)) : z.toInt = c := by
  apply eq_of_testBit_eq
  intro k
  rw [hc, testBit_toInt, testBit_toInt, testBit_toInt]
  split
  · rename_i hk
    exact hz k hk
  · exact hm

namespace Int64

theorem toInt_land (a b : Int64) : (a &&& b).toInt = Int.land a.toInt b.toInt :=
  toInt_bitwise (f := and) (fun _ _ => BitVec.getLsbD_and) BitVec.msb_and (Int.testBit_land _ _)

theorem toInt_lor (a b : Int64) : (a ||| b).toInt = Int.lor a.toInt b.toInt :=
  toInt_bitwise (f := or) (fun _ _ => BitVec.getLsbD_or) BitVec.msb_or (Int.testBit_lor _ _)

theorem toInt_xor (a b : Int64) : (a ^^^ b).toInt = Int.xor a.toInt b.toInt :=
  toInt_bitwise (f := xor) (fun _ _ => BitVec.getLsbD_xor) BitVec.msb_xor (Int.testBit_lxor _ _)

theorem toInt_ldiff (a b : Int64) : (a &&& ~~~b).toInt = Int.ldiff a.toInt b.toInt := by
  apply toInt_bitwise (x := a.toBitVec) (y := b.toBitVec) (f := fun s t => s && !t) _ _
    (Int.testBit_ldiff _ _)
  · intro k hk
    rw [Int64.toBitVec_and, Int64.toBitVec_not, BitVec.getLsbD_and, BitVec.getLsbD_not,
      decide_eq_true hk, Bool.true_and]
  · rw [Int64.toBitVec_and, Int64.toBitVec_not, BitVec.msb_and, BitVec.msb_not,
      decide_eq_true (by decide), Bool.true_and]

end Int64

end LispCalc
