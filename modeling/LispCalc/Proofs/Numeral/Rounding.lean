import LispCalc.Proofs.Binary64.Integer
import LispCalc.Proofs.Numeral.Grammar
import LispCalc.Proofs.Source.RoundTrip

namespace LispCalc

-- Powers of natural numbers are those of the core library, whatever else is imported.
attribute [local instance (high)] instPowNat

namespace Binary64

variable {q : ℚ} {x y : Binary64} {negative : Bool}

/-- The number is `q` rounded correctly, and also a zero has the sign that is asked for. -/
structure IsRounded (negative : Bool) (q : ℚ) (x : Binary64) : Prop extends IsNearest q x where
  isNegative_eq : x.isNegative = negative

namespace IsRounded

theorem finite_or_infinity (h : IsRounded negative q x) :
    (∃ rank, x = .finite negative rank ∧ |q| < overflow) ∨
      x = .infinity negative ∧ overflow ≤ |q| := by
  have hs := h.isNegative_eq
  cases x with
  | nan => exact absurd h.isNaN_eq (by decide)
  | infinity negative' =>
    cases hs
    exact .inr ⟨rfl, h.isInfinite_iff.mp rfl⟩
  | finite negative' rank =>
    cases hs
    exact .inl ⟨rank, rfl, not_le.mp fun ho => Bool.false_ne_true (h.isInfinite_iff.mpr ho)⟩

theorem eq_infinity_iff (h : IsRounded negative q x) : x = .infinity negative ↔ overflow ≤ |q| := by
  rcases h.finite_or_infinity with ⟨rank, hx, ho⟩ | ⟨hx, ho⟩
  · exact iff_of_false (fun hi => Binary64.noConfusion (hx.symm.trans hi)) (not_le.mpr ho)
  · exact iff_of_true hx ho

theorem signedBy_abs (h : IsRounded negative q x) : signedBy negative |q| = q := by
  by_cases hq : q = 0
  · rw [hq, abs_zero, signedBy_zero]
  · rw [← h.isNegative_eq, h.sign hq, Binary64.signedBy_abs]

variable {rank : Fin (2047 * 2 ^ (52 : Nat))}

theorem abs_sub_eq (h : IsRounded negative q x) (m : ℚ) :
    |q - signedBy negative m| = abs (|q| - m) := by
  rw [← abs_sub_signedBy negative (abs q) m, h.signedBy_abs]

theorem abs_sub_le (h : IsRounded negative q (.finite negative rank))
    (rank' : Fin (2047 * 2 ^ (52 : Nat))) :
    abs (|q| - magnitude rank) ≤ abs (|q| - magnitude rank') := by
  rw [← h.abs_sub_eq, ← h.abs_sub_eq]
  exact h.nearest _ rfl (.finite negative rank') _ rfl

theorem rank_eq_zero_iff (h : IsRounded negative q (.finite negative rank)) :
    rank = 0 ↔ |q| ≤ magnitude 1 / 2 := by
  have hzero : magnitude (0 : Fin (2047 * 2 ^ (52 : Nat))) = 0 := magnitude_zero
  have hone : 0 < magnitude 1 := magnitude_zero ▸ magnitude_lt_succ 0
  constructor
  · rintro rfl
    have hle : abs (|q| - magnitude (0 : Fin (2047 * 2 ^ (52 : Nat)))) ≤ abs (|q| - magnitude 1) :=
      h.abs_sub_le 1
    rw [hzero, sub_zero, abs_abs] at hle
    rcases le_abs.mp hle with hn | hn <;> linarith
  · intro hq
    -- Of the other ranks only the first is as near as zero, in the middle between both, and it is
    -- odd.
    by_contra hr
    have hpos : 1 ≤ rank.val := Nat.one_le_iff_ne_zero.mpr (Fin.val_ne_zero_iff.mpr hr)
    have hle := h.abs_sub_le 0
    have hfar := neg_le_abs (|q| - magnitude rank)
    rw [hzero, sub_zero, abs_abs] at hle
    have hrank : rank.val = 1 := by
      rcases Nat.eq_or_lt_of_le hpos with he | hlt
      · exact he.symm
      · have hlt := magnitude_lt hlt
        linarith
    have hne : signedBy negative (magnitude (0 : Fin (2047 * 2 ^ (52 : Nat)))) ≠
        signedBy negative (magnitude rank) := by
      rw [← sub_ne_zero, ← abs_ne_zero, abs_sub_signedBy, abs_ne_zero, sub_ne_zero, hzero, hrank]
      exact hone.ne
    have htie : |q - signedBy negative (magnitude rank)| =
        |q - signedBy negative (magnitude (0 : Fin (2047 * 2 ^ (52 : Nat))))| := by
      rw [h.abs_sub_eq, h.abs_sub_eq, hzero, sub_zero, abs_abs]
      rw [hrank] at hfar hle ⊢
      linarith
    have heven := h.even _ rfl (.finite negative 0) _ rfl hne htie
    rw [isEven, hrank] at heven
    cases heven

theorem eq_zero_iff (h : IsRounded negative q x) :
    x = .finite negative 0 ↔ |q| ≤ magnitude 1 / 2 := by
  rcases h.finite_or_infinity with ⟨rank, rfl, -⟩ | ⟨rfl, ho⟩
  · rw [← h.rank_eq_zero_iff, Binary64.finite.injEq, eq_self_iff_true, true_and]
  · refine iff_of_false Binary64.noConfusion (not_le.mpr (lt_of_lt_of_le ?_ ho))
    have hlt := magnitude_lt_overflow 1
    have hz := magnitude_nonneg 1
    change magnitude 1 < overflow at hlt
    linarith

theorem unique (hx : IsRounded negative q x) (hy : IsRounded negative q y) : x = y := by
  by_cases hq : q = 0
  · have hz : |q| ≤ magnitude 1 / 2 := by
      rw [hq, abs_zero]
      exact div_nonneg (magnitude_nonneg 1) (by norm_num)
    rw [hx.eq_zero_iff.mpr hz, hy.eq_zero_iff.mpr hz]
  · exact hx.toIsNearest.unique hq hy.toIsNearest

end IsRounded

end Binary64

namespace Decimal

open Binary64

theorem isNegative_toBinary64 (d : Decimal) : d.toBinary64.isNegative = d.negative := by
  rw [toBinary64_eq_ofRatio]
  rcases ofRatio_cases d.negative (d.numerator * unitsPerOne) d.denominator with
    ⟨_, he⟩ | ⟨-, he⟩ <;>
    rw [he] <;> rfl

theorem isRounded_toBinary64 (d : Decimal) : IsRounded d.negative d.value d.toBinary64 :=
  ⟨d.isNearest_toBinary64, d.isNegative_toBinary64⟩

end Decimal

namespace Numeral

open Binary64

variable {cs : List Char} {negative : Bool}

theorem isAtomChar_of_digits (h : ∀ c ∈ cs, c.isDigit) : ∀ c ∈ cs, isAtomChar c :=
  fun c hc => Decimal.isAtomChar_of_isDigit (h c hc)

theorem Sign.isAtomChar (h : Sign cs negative) : ∀ c ∈ cs, LispCalc.isAtomChar c := by
  cases h with
  | none => exact fun _ hc => nomatch hc
  | plus | minus => exact List.forall_mem_singleton.mpr rfl

theorem Significand.isAtomChar {m : ℚ} (h : Significand cs m) :
    ∀ c ∈ cs, LispCalc.isAtomChar c := by
  cases h with
  | whole _ hw => exact isAtomChar_of_digits hw
  | pointed _ hw hf =>
    exact List.forall_mem_append.mpr
      ⟨isAtomChar_of_digits hw, List.forall_mem_cons.mpr ⟨rfl, isAtomChar_of_digits hf⟩⟩
  | fraction _ hf => exact List.forall_mem_cons.mpr ⟨rfl, isAtomChar_of_digits hf⟩

theorem Significand.ne_nil {m : ℚ} (h : Significand cs m) : cs ≠ [] := by
  cases h with
  | whole hn => exact hn
  | pointed => exact List.append_ne_nil_of_right_ne_nil _ (List.cons_ne_nil _ _)
  | fraction => exact List.cons_ne_nil _ _

theorem Exponent.isAtomChar {e : Int} (h : Exponent cs e) : ∀ c ∈ cs, LispCalc.isAtomChar c := by
  cases h with
  | none => exact fun _ hc => nomatch hc
  | some hl hs _ hd =>
    have ht := List.forall_mem_append.mpr ⟨hs.isAtomChar, isAtomChar_of_digits hd⟩
    rcases hl with rfl | rfl <;> exact List.forall_mem_cons.mpr ⟨rfl, ht⟩

theorem Spells.exists_atom {q : ℚ} (h : Spells cs negative q) : ∃ a : Atom, a.chars = cs := by
  cases h with
  | mk hs hm he =>
    refine ⟨⟨_, ?_, ?_⟩, rfl⟩
    · exact List.append_ne_nil_of_right_ne_nil _ (List.append_ne_nil_of_left_ne_nil hm.ne_nil _)
    · exact List.forall_mem_append.mpr
        ⟨hs.isAtomChar, List.forall_mem_append.mpr ⟨hm.isAtomChar, he.isAtomChar⟩⟩

theorem denotes_numeral (a : Atom) {x : Binary64} (h : Lexeme.ofAtom a.chars = .number x) :
    Denotes a.chars [.atom (.number x)] := by
  refine .atom a ?_ (.number x)
  intro span
  rw [h]
  rfl

theorem readProgram_numeral {q : ℚ} {x : Binary64} (h : Spells cs negative q)
    (hx : Lexeme.ofAtom cs = .number x) :
    readProgram (String.ofList cs) = .ok [.atom (.number x)] := by
  obtain ⟨a, rfl⟩ := h.exists_atom
  apply readProgram_of_denotes
  · rw [String.toList_ofList]
    exact denotes_numeral a hx
  · exact Nat.zero_le _

/-- What matches the pattern of numerals is read as the number nearest to the value that it
spells, of two equally near ones the even one, and with the sign that is written: an infinite
number from the middle above the greatest magnitude on, and zero up to the middle below the least
one. -/
theorem numeral_rounded_correctly (h : cs ∈ pattern.matches') :
    ∃ negative q x, (Spells cs negative q ∧
        ∀ negative' q', Spells cs negative' q' → negative' = negative ∧ q' = q) ∧
      Lexeme.ofAtom cs = .number x ∧ readProgram (String.ofList cs) = .ok [.atom (.number x)] ∧
      (IsRounded negative q x ∧ ∀ y, IsRounded negative q y → y = x) ∧
      (x = .infinity negative ↔ overflow ≤ |q|) ∧
      (x = .finite negative 0 ↔ |q| ≤ magnitude 1 / 2) := by
  obtain ⟨d, hd⟩ := mem_pattern_iff_read?.mp h
  have hs : Spells cs d.negative d.value := spells_iff.mpr ⟨d, hd, rfl, rfl⟩
  have hx := Lexeme.ofAtom_of_read? hd
  have hr := d.isRounded_toBinary64
  exact ⟨d.negative, d.value, d.toBinary64, ⟨hs, fun _ _ => hs.unique⟩, hx,
    readProgram_numeral hs hx, ⟨hr, fun _ hy => hy.unique hr⟩, hr.eq_infinity_iff, hr.eq_zero_iff⟩

theorem numeral_rounded_correctly_tie :
    let x : Binary64 := .finite true ⟨1076 * 2 ^ (52 : Nat), by decide⟩
    "-9007199254740993".toList ∈ pattern.matches' ∧
      readProgram "-9007199254740993" = .ok [.atom (.number x)] ∧
      IsRounded true (-9007199254740993) x := by
  intro x
  have h : "-9007199254740993".toList ∈ pattern.matches' :=
    (RegularExpression.rmatch_iff_matches' _ _).mp (by decide)
  obtain ⟨negative, q, y, ⟨-, hu⟩, hy, hr, ⟨hq, -⟩, -⟩ := numeral_rounded_correctly h
  have hv : signedBy true (digitsValue "9007199254740993".toList * 10 ^ (0 : Int)) =
      -9007199254740993 := by
    have hd : digitsValue "9007199254740993".toList = 9007199254740993 := by decide
    rw [hd, zpow_zero, mul_one]
    rfl
  have hm : Significand "9007199254740993".toList (digitsValue "9007199254740993".toList) :=
    .whole (by decide) (List.all_eq_true.mp (by decide))
  have hs : Spells "-9007199254740993".toList true (-9007199254740993) := hv ▸ .mk .minus hm .none
  have hx : Lexeme.ofAtom "-9007199254740993".toList = .number x := by decide +kernel
  obtain ⟨rfl, rfl⟩ := hu _ _ hs
  cases hy.symm.trans hx
  exact ⟨h, hr, hq⟩

end Numeral

end LispCalc
