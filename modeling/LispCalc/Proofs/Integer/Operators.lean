import LispCalc.Proofs.Binary64.Integer
import LispCalc.Proofs.Integer.Bits
import LispCalc.Operator.Apply
import Mathlib.Data.Int.ModEq
import Mathlib.Data.Rat.Floor

namespace LispCalc

namespace Int64

theorem toNat_count {n : Nat} (hn : n < 64) :
    ((Int64.ofNat n).toBitVec.smod 64).toNat = n := by
  have hi : (Int64.ofNat n).toInt = n := Int64.toInt_ofNat_of_lt (by omega)
  have hs : ((Int64.ofNat n).toBitVec.smod 64).toInt = n := by
    rw [BitVec.toInt_smod, Int64.toInt_toBitVec, hi]
    exact Int.fmod_eq_of_lt (Int.natCast_nonneg n) (Int.ofNat_lt.mpr hn)
  have hm : ((Int64.ofNat n).toBitVec.smod 64).msb = false := by
    rw [BitVec.msb_eq_toInt, hs]
    exact decide_eq_false (Int.not_lt.mpr (Int.natCast_nonneg n))
  rw [← BitVec.toNat_toInt_of_msb _ hm, hs, Int.toNat_natCast]

theorem toInt_shiftRight (a : Int64) {n : Nat} (hn : n < 64) :
    (a >>> Int64.ofNat n).toInt = a.toInt / 2 ^ n := by
  rw [← Int64.toInt_toBitVec, Int64.toBitVec_shiftRight, BitVec.toInt_sshiftRight',
    toNat_count hn, Int.shiftRight_eq_div_pow, Nat.cast_pow]
  rfl

theorem toInt_shiftLeft (a : Int64) {n : Nat} (hn : n < 64) :
    (a <<< Int64.ofNat n).toInt = (a.toInt * 2 ^ n).bmod (2 ^ 64) := by
  have ha : a.toInt = (a.toBitVec.toNat : Int).bmod (2 ^ 64) :=
    BitVec.toInt_eq_toNat_bmod a.toBitVec
  rw [ha, Int.bmod_mul_bmod, ← Int64.toInt_toBitVec, Int64.toBitVec_shiftLeft, BitVec.shiftLeft_eq',
    toNat_count hn, BitVec.toInt_shiftLeft, Nat.shiftLeft_eq]
  push_cast
  rfl

theorem toInt_sign (a : Int64) {n : Nat} (hn : 64 ≤ n) :
    (if a < 0 then (-1 : Int64) else 0).toInt = a.toInt / 2 ^ n := by
  have hl := a.le_toInt
  have hu := a.toInt_lt
  have hp : (2 : Int) ^ 64 ≤ 2 ^ n := pow_le_pow_right₀ (by decide) hn
  split
  · rename_i h
    have ha : a.toInt < 0 := Int64.lt_iff_toInt_lt.mp h
    exact (Int.ediv_eq_neg_one_of_neg_of_le ha (by omega)).symm
  · rename_i h
    have ha : ¬ a.toInt < 0 := fun hlt => h (Int64.lt_iff_toInt_lt.mpr hlt)
    exact (Int.ediv_eq_zero_of_lt (by omega) (by omega)).symm

theorem toInt_zero_eq_bmod (a : Int) {n : Nat} (hn : 64 ≤ n) :
    (0 : Int64).toInt = (a * 2 ^ n).bmod (2 ^ 64) := by
  obtain ⟨k, rfl⟩ := Nat.exists_eq_add_of_le' hn
  rw [pow_add, ← mul_assoc]
  exact (Int.mul_bmod_left _ _).symm

end Int64

namespace Operator

theorem shiftCount_of_neg (op : Operator) {b : Int64} (h : b.toInt < 0) :
    shiftCount op b = .error (.invalidShift op.name b.toInt) :=
  if_pos (Int64.lt_iff_toInt_lt.mpr h)

theorem exists_shiftCount (op : Operator) {b : Int64} (h : ¬ b.toInt < 0) :
    ∃ count, shiftCount op b = .ok count ∧
      (count.toNat = b.toInt.toNat ∨ 64 ≤ count.toNat ∧ 64 ≤ b.toInt.toNat) := by
  refine ⟨_, if_neg (mt Int64.lt_iff_toInt_lt.mp h), ?_⟩
  rw [Int64.toNat_toInt]
  rcases Nat.lt_or_ge b.toNatClampNeg UInt32.size with hb | hb
  · exact .inl (UInt32.toNat_ofNatClamp_of_lt hb)
  · refine .inr ⟨?_, Nat.le_trans (by decide) hb⟩
    rw [UInt32.toNat_ofNatClamp_of_le hb]
    decide

theorem checkedShift_of_lt (shift : Int64 → Int64 → Int64) (a : Int64) {count : UInt32}
    (h : count.toNat < 64) : checkedShift shift a count = some (shift a (.ofNat count.toNat)) :=
  if_pos (UInt32.lt_iff_toNat_lt.mpr h)

theorem checkedShift_of_le (shift : Int64 → Int64 → Int64) (a : Int64) {count : UInt32}
    (h : 64 ≤ count.toNat) : checkedShift shift a count = none :=
  if_neg fun hc => Nat.not_lt.mpr h (UInt32.lt_iff_toNat_lt.mp hc)

/-- A shift follows one formula for every count, if it does so within the width and its value past
the width is what the formula says there. -/
theorem shift_toInt (op : Operator) (shift : Int64 → Int64 → Int64) (a b past : Int64)
    (f : Nat → Int) (hf : ∀ n < 64, (shift a (.ofNat n)).toInt = f n)
    (hp : ∀ n, 64 ≤ n → past.toInt = f n) :
    (shiftCount op b >>= fun count => pure ((checkedShift shift a count).getD past)).map
        Int64.toInt =
      if b.toInt < 0 then .error (.invalidShift op.name b.toInt) else .ok (f b.toInt.toNat) := by
  by_cases h : b.toInt < 0
  · rw [if_pos h, shiftCount_of_neg op h]
    rfl
  · obtain ⟨count, hc, hn⟩ := exists_shiftCount op h
    rw [if_neg h, hc]
    refine congrArg Except.ok ?_
    rcases Nat.lt_or_ge count.toNat 64 with hw | hw
    · have he : count.toNat = b.toInt.toNat := by omega
      rw [checkedShift_of_lt shift a hw, ← he]
      exact hf _ hw
    · rw [checkedShift_of_le shift a hw]
      exact hp _ (by omega)

end Operator

/-- The operators that work on the integers that numbers truncate to. -/
inductive IntegerOperator where
  | mod
  | bitAnd
  | bitOr
  | bitXor
  | bitClear
  | shiftRight
  | shiftLeft
deriving DecidableEq

namespace IntegerOperator

def operator : IntegerOperator → Operator
  | .mod => .mod
  | .bitAnd => .bitAnd
  | .bitOr => .bitOr
  | .bitXor => .bitXor
  | .bitClear => .bitClear
  | .shiftRight => .shiftRight
  | .shiftLeft => .shiftLeft

def onWords (a b : Int64) : IntegerOperator → Except EvalError Int64
  | .mod => Operator.remainder a b
  | .bitAnd => .ok (a &&& b)
  | .bitOr => .ok (a ||| b)
  | .bitXor => .ok (a ^^^ b)
  | .bitClear => .ok (a &&& ~~~b)
  | .shiftRight => Operator.shiftedRight a b
  | .shiftLeft => Operator.shiftedLeft a b

/-- The operation on integers: the remainder of a division that truncates, the bits of two's
complements without end, division by a power of two that rounds down, and the residue that fits 64
bits. -/
def onIntegers (a b : Int) : IntegerOperator → Except EvalError Int
  | .mod => if b = 0 then .error (.divisionByZero Operator.mod.name) else .ok (a.tmod b)
  | .bitAnd => .ok (Int.land a b)
  | .bitOr => .ok (Int.lor a b)
  | .bitXor => .ok (Int.xor a b)
  | .bitClear => .ok (Int.ldiff a b)
  | .shiftRight =>
    if b < 0 then .error (.invalidShift Operator.shiftRight.name b) else .ok (a / 2 ^ b.toNat)
  | .shiftLeft =>
    if b < 0 then .error (.invalidShift Operator.shiftLeft.name b)
    else .ok ((a * 2 ^ b.toNat).bmod (2 ^ 64))

theorem remainder_toInt (a b : Int64) :
    (Operator.remainder a b).map Int64.toInt = mod.onIntegers a.toInt b.toInt := by
  have hb : b.toInt = 0 ↔ b = 0 := by
    rw [← Int64.toInt_inj, Int64.toInt_zero]
  rw [Operator.remainder, onIntegers]
  simp only [hb]
  split
  · rfl
  · exact congrArg Except.ok (Int64.toInt_mod a b)

theorem shiftedRight_toInt (a b : Int64) :
    (Operator.shiftedRight a b).map Int64.toInt = shiftRight.onIntegers a.toInt b.toInt :=
  Operator.shift_toInt .shiftRight _ a b _ (fun n => a.toInt / 2 ^ n)
    (fun _ hn => Int64.toInt_shiftRight a hn) (fun _ hn => Int64.toInt_sign a hn)

theorem shiftedLeft_toInt (a b : Int64) :
    (Operator.shiftedLeft a b).map Int64.toInt = shiftLeft.onIntegers a.toInt b.toInt :=
  Operator.shift_toInt .shiftLeft _ a b _ (fun n => (a.toInt * 2 ^ n).bmod (2 ^ 64))
    (fun _ hn => Int64.toInt_shiftLeft a hn) (fun _ hn => Int64.toInt_zero_eq_bmod a.toInt hn)

theorem onWords_toInt (op : IntegerOperator) (a b : Int64) :
    (op.onWords a b).map Int64.toInt = op.onIntegers a.toInt b.toInt := by
  cases op with
  | mod => exact remainder_toInt a b
  | bitAnd => exact congrArg Except.ok (Int64.toInt_land a b)
  | bitOr => exact congrArg Except.ok (Int64.toInt_lor a b)
  | bitXor => exact congrArg Except.ok (Int64.toInt_xor a b)
  | bitClear => exact congrArg Except.ok (Int64.toInt_ldiff a b)
  | shiftRight => exact shiftedRight_toInt a b
  | shiftLeft => exact shiftedLeft_toInt a b

/-- Applied to any two numbers, an integer operator gives the number that the result on the
integers is rounded to, or its error. -/
theorem apply_eq (op : IntegerOperator) (x y : Binary64) :
    op.operator.apply [.number x, .number y] =
      (op.onIntegers x.toInt64.toInt y.toInt64.toInt).map fun n => .number (.ofInt n) := by
  have hw : op.operator.apply [.number x, .number y] =
      (op.onWords x.toInt64 y.toInt64).map .ofInt64 := by
    cases op <;> rfl
  rw [hw, ← onWords_toInt]
  cases op.onWords x.toInt64 y.toInt64 <;> rfl

theorem fits_of_onIntegers {op : IntegerOperator} (ho : op ≠ .shiftLeft) {bits : Nat} {a b c : Int}
    (ha : Fits bits a) (hb : Fits bits b) (h : op.onIntegers a b = .ok c) : Fits bits c := by
  cases op with
  | shiftLeft => exact absurd rfl ho
  | bitAnd =>
    cases h
    exact ha.bitwise hb (Int.testBit_land a b)
  | bitOr =>
    cases h
    exact ha.bitwise hb (Int.testBit_lor a b)
  | bitXor =>
    cases h
    exact ha.bitwise hb (Int.testBit_lxor a b)
  | bitClear =>
    cases h
    exact ha.bitwise (f := fun s t => s && !t) hb (Int.testBit_ldiff a b)
  | mod =>
    rw [onIntegers] at h
    split at h
    · cases h
    · cases h
      exact ha.tmod b
  | shiftRight =>
    rw [onIntegers] at h
    split at h
    · cases h
    · cases h
      exact ha.ediv (pow_pos (by decide) _)

end IntegerOperator

namespace Binary64

theorem toInt_toInt64 {x : Binary64} {n : Int} (h : x.value? = some (n : ℚ)) (hn : Fits 63 n) :
    x.toInt64.toInt = n := by
  have hl : Int64.minValue.toInt ≤ n := hn.1
  have hu : n ≤ Int64.maxValue.toInt := Int.le_sub_one_of_lt hn.2
  rw [toInt64_eq h, Int64.toInt_ofIntClamp hl hu]

end Binary64

namespace Operator

open Binary64

/-- Shifting by a count that is not negative is division by its power of two, rounded down, or
multiplication by it, with the bits that leave the width dropped; no count is too great. -/
theorem shift_by_any_count (x y : Binary64) :
    let a := x.toInt64.toInt
    let n := y.toInt64.toInt
    (n < 0 →
      shiftRight.apply [.number x, .number y] = .error (.invalidShift shiftRight.name n) ∧
      shiftLeft.apply [.number x, .number y] = .error (.invalidShift shiftLeft.name n)) ∧
    (0 ≤ n →
      (∃ q : Int, q = ⌊(a : ℚ) / 2 ^ n.toNat⌋ ∧ IsNearest q (ofInt q) ∧
        shiftRight.apply [.number x, .number y] = .ok (.number (ofInt q))) ∧
      ∃ c : Int, -2 ^ 63 ≤ c ∧ c < 2 ^ 63 ∧ c ≡ a * 2 ^ n.toNat [ZMOD 2 ^ 64] ∧
        IsNearest c (ofInt c) ∧
        shiftLeft.apply [.number x, .number y] = .ok (.number (ofInt c))) := by
  intro a n
  have hr := IntegerOperator.shiftRight.apply_eq x y
  have hl := IntegerOperator.shiftLeft.apply_eq x y
  rw [IntegerOperator.onIntegers] at hr
  rw [IntegerOperator.onIntegers] at hl
  constructor
  · intro hn
    rw [if_pos hn] at hr hl
    exact ⟨hr, hl⟩
  · intro hn
    rw [if_neg (Int.not_lt.mpr hn)] at hr hl
    constructor
    · have hf : a / 2 ^ n.toNat = ⌊(a : ℚ) / 2 ^ n.toNat⌋ := by
        have h := Rat.floor_intCast_div_natCast a (2 ^ n.toNat)
        push_cast at h
        exact h.symm
      exact ⟨_, hf, isNearest_ofInt _, hr⟩
    · have hc : (a * 2 ^ n.toNat).bmod (2 ^ 64) ≡ a * 2 ^ n.toNat [ZMOD 2 ^ 64] := Int.bmod_emod
      exact ⟨_, Int.le_bmod (by decide), Int.bmod_lt (by decide), hc, isNearest_ofInt _, hl⟩

theorem shift_by_any_count_minus_five :
    shiftRight.apply [.number (ofInt (-5)), .number (ofInt 100)] = .ok (.number (ofInt (-1))) ∧
    shiftLeft.apply [.number (ofInt (-5)), .number (ofInt (-3))] =
      .error (.invalidShift shiftLeft.name (-3)) := by
  have hv (n : Int) (hn : n.natAbs ≤ 100) : (ofInt n).toInt64.toInt = n := by
    apply toInt_toInt64 (value?_ofInt (Nat.le_trans hn (by decide)))
    constructor <;> omega
  constructor
  · obtain ⟨-, h⟩ := shift_by_any_count (ofInt (-5)) (ofInt 100)
    rw [hv 100 (by decide), hv (-5) (by decide)] at h
    obtain ⟨⟨q, hq, -, h⟩, -⟩ := h (by decide)
    have hf : ⌊((-5 : Int) : ℚ) / 2 ^ Int.toNat 100⌋ = -1 := by
      rw [Int.floor_eq_iff, show Int.toNat 100 = 100 from rfl]
      norm_num
    rw [h, hq, hf]
  · obtain ⟨h, -⟩ := shift_by_any_count (ofInt (-5)) (ofInt (-3))
    rw [hv (-3) (by decide)] at h
    exact (h (by decide)).2

end Operator

end LispCalc
