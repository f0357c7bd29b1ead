import LispCalc.Proofs.Decimal.Value
import LispCalc.Proofs.Source.Word

namespace LispCalc

-- Powers of natural numbers are those of the core library, whatever else is imported.
attribute [local instance (high)] instPowNat

namespace Numeral

theorem not_sign_of_isDigit {c : Char} (h : c.isDigit) : c ≠ '-' ∧ c ≠ '+' := by
  constructor <;> rintro rfl <;> cases h

theorem takeSign_unsigned {cs : List Char} (h : ∀ c ∈ cs.head?, c ≠ '-' ∧ c ≠ '+') :
    takeSign cs = (false, cs) := by
  unfold takeSign
  split
  · exact ((h _ rfl).1 rfl).elim
  · exact ((h _ rfl).2 rfl).elim
  · rfl

theorem takeDigits?_pointed {whole : List Char} (hw : ∀ c ∈ whole, c.isDigit) (behind : List Char) :
    takeDigits? (whole ++ '.' :: behind) =
      if whole = [] ∧ behind.takeWhile Char.isDigit = [] then none
      else some (whole, behind.takeWhile Char.isDigit, behind.dropWhile Char.isDigit) := by
  obtain ⟨ht, hd⟩ := span_run hw (stops_cons '.' behind rfl)
  simp only [takeDigits?, ht, hd]

theorem takeDigits?_unpointed {whole rest : List Char} (hw : ∀ c ∈ whole, c.isDigit)
    (hr : ∀ c ∈ rest.head?, c.isDigit = false ∧ c ≠ '.') :
    takeDigits? (whole ++ rest) = if whole = [] then none else some (whole, [], rest) := by
  obtain ⟨ht, hd⟩ := span_run hw fun c hc => (hr c hc).1
  simp only [takeDigits?, ht, hd]
  split
  · exact ((hr _ rfl).2 rfl).elim
  · rfl

end Numeral

namespace Decimal

/-- Digits, with a point in front of the last `places` of them. -/
structure Pointed (coefficient places : Nat) (whole fraction : List Char) : Prop where
  nonempty : whole ≠ []
  whole_digits : ∀ c ∈ whole, c.isDigit
  fraction_digits : ∀ c ∈ fraction, c.isDigit
  length_fraction : fraction.length = places
  value : Nat.ofDigitChars 10 (whole ++ fraction) 0 = coefficient
  text : pointed coefficient places = if places = 0 then whole else whole ++ '.' :: fraction

theorem exists_pointed (coefficient places : Nat) :
    ∃ whole fraction, Pointed coefficient places whole fraction := by
  have hd : ∀ c ∈ Nat.toDigits 10 coefficient, c.isDigit := by
    intro c hc
    exact Nat.isDigit_of_mem_toDigits (by decide) (by decide) hc
  by_cases hp : places = 0
  · refine ⟨Nat.toDigits 10 coefficient, [], Nat.toDigits_ne_nil, hd, (fun _ hc => nomatch hc),
      hp.symm, ?_, ?_⟩
    · rw [List.append_nil, Nat.ofDigitChars_ten_toDigits]
    · rw [if_pos hp, pointed, if_pos hp]
  -- Zeros in front bring the digits to one more than the places.
  let zeros := List.replicate (places + 1 - (Nat.toDigits 10 coefficient).length) '0'
  let padded := zeros ++ Nat.toDigits 10 coefficient
  have hl : places < padded.length := by
    simp only [padded, zeros, List.length_append, List.length_replicate]
    omega
  have hdigits : ∀ c ∈ padded, c.isDigit := by
    intro c hc
    rcases List.mem_append.mp hc with hz | hc
    · rw [List.eq_of_mem_replicate hz]
      rfl
    · exact hd c hc
  refine ⟨padded.take (padded.length - places), padded.drop (padded.length - places), ?_,
    fun c hc => hdigits c (List.mem_of_mem_take hc),
    fun c hc => hdigits c (List.mem_of_mem_drop hc), ?_, ?_, ?_⟩
  · apply List.ne_nil_of_length_pos
    rw [List.length_take]
    omega
  · rw [List.length_drop]
    omega
  · rw [List.take_append_drop, Nat.ofDigitChars_append, Nat.ofDigitChars_replicate_zero,
      Nat.mul_zero, Nat.ofDigitChars_ten_toDigits]
  · rw [if_neg hp, pointed, if_neg hp]

variable {coefficient places : Nat} {whole fraction : List Char}

theorem Pointed.head (h : Pointed coefficient places whole fraction) :
    ∀ c ∈ (pointed coefficient places).head?, c.isDigit := by
  obtain ⟨c, cs, rfl⟩ := List.exists_cons_of_ne_nil h.nonempty
  have hc : (pointed coefficient places).head? = some c := by
    rw [h.text]
    split <;> rfl
  intro d hd
  rw [hc] at hd
  cases hd
  exact h.whole_digits c List.mem_cons_self

theorem Pointed.mem (h : Pointed coefficient places whole fraction) :
    ∀ c ∈ pointed coefficient places, c.isDigit ∨ c = '.' := by
  intro c hc
  rw [h.text] at hc
  split at hc
  · exact .inl (h.whole_digits c hc)
  · rcases List.mem_append.mp hc with hc | hc
    · exact .inl (h.whole_digits c hc)
    rcases List.mem_cons.mp hc with rfl | hc
    · exact .inr rfl
    · exact .inl (h.fraction_digits c hc)

theorem Pointed.takeDigits? (h : Pointed coefficient places whole fraction) :
    Numeral.takeDigits? (pointed coefficient places) = some (whole, fraction, []) := by
  rw [h.text]
  split
  · rename_i hp
    have hf : fraction = [] := List.eq_nil_of_length_eq_zero (h.length_fraction.trans hp)
    have hn : ∀ c ∈ ([] : List Char).head?, c.isDigit = false ∧ c ≠ '.' := fun _ hc => nomatch hc
    have hw := Numeral.takeDigits?_unpointed h.whole_digits hn
    rw [List.append_nil, if_neg h.nonempty] at hw
    rw [hf, hw]
  · obtain ⟨ht, hr⟩ := span_run h.fraction_digits stops_nil
    rw [List.append_nil] at ht hr
    rw [Numeral.takeDigits?_pointed h.whole_digits, ht, hr, if_neg (h.nonempty ·.1)]

theorem read?_signed (negative : Bool) (coefficient places : Nat) :
    Numeral.read? (if negative then '-' :: pointed coefficient places
      else pointed coefficient places) = some ⟨negative, coefficient, -places⟩ := by
  obtain ⟨whole, fraction, h⟩ := exists_pointed coefficient places
  have hs : Numeral.takeSign (if negative then '-' :: pointed coefficient places
      else pointed coefficient places) = (negative, pointed coefficient places) := by
    cases negative with
    | false => exact Numeral.takeSign_unsigned fun c hc => Numeral.not_sign_of_isDigit (h.head c hc)
    | true => rfl
  simp only [Numeral.read?, hs, h.takeDigits?, Numeral.exponent?, h.value, h.length_fraction,
    Int.zero_sub]

theorem exists_positional (d : Decimal) :
    ∃ coefficient places, coefficient * d.denominator = d.numerator * 10 ^ places ∧
      d.positional = if d.negative then '-' :: pointed coefficient places
        else pointed coefficient places := by
  by_cases he : 0 ≤ d.exponent
  · have hd : (-d.exponent).toNat = 0 := by omega
    refine ⟨d.numerator, 0, by rw [denominator, hd], ?_⟩
    simp only [positional, if_pos he, numerator]
  · have hn : d.exponent.toNat = 0 := by omega
    refine ⟨(dropZeros d.coefficient (-d.exponent).toNat).1,
      (dropZeros d.coefficient (-d.exponent).toNat).2, ?_, by simp only [positional, if_neg he]⟩
    rw [numerator, denominator, hn, Nat.pow_zero, Nat.mul_one]
    exact dropZeros_mul d.coefficient (-d.exponent).toNat

theorem exists_read?_positional (d : Decimal) :
    ∃ d', Numeral.read? d.positional = some d' ∧ d'.negative = d.negative ∧
      d'.numerator * d.denominator = d.numerator * d'.denominator := by
  obtain ⟨coefficient, places, hv, ht⟩ := exists_positional d
  refine ⟨⟨d.negative, coefficient, -places⟩, ?_, rfl, ?_⟩
  · rw [ht, read?_signed]
  · have hn : (-(places : Int)).toNat = 0 := by omega
    have hp : (- -(places : Int)).toNat = places := by omega
    simp only [numerator, denominator, hn, hp, Nat.pow_zero, Nat.mul_one] at hv ⊢
    exact hv

theorem positional_ne_nil (d : Decimal) : d.positional ≠ [] := by
  obtain ⟨d', hd, -⟩ := exists_read?_positional d
  intro hn
  rw [hn] at hd
  cases hd

theorem mem_positional (d : Decimal) :
    ∀ c ∈ d.positional, c.isDigit ∨ c = '.' ∨ c = '-' := by
  obtain ⟨coefficient, places, -, ht⟩ := exists_positional d
  obtain ⟨whole, fraction, h⟩ := exists_pointed coefficient places
  intro c hc
  rw [ht] at hc
  split at hc
  · rcases List.mem_cons.mp hc with rfl | hc
    · exact .inr (.inr rfl)
    · exact (h.mem c hc).imp_right .inl
  · exact (h.mem c hc).imp_right .inl

theorem isAtomChar_of_isDigit {c : Char} (h : c.isDigit) : isAtomChar c := by
  have hb : isBlank c = false := by
    simp only [isBlank, Bool.or_eq_false_iff, decide_eq_false_iff_not]
    refine ⟨⟨⟨?_, ?_⟩, ?_⟩, ?_⟩ <;> rintro rfl <;> cases h
  refine isAtomChar_iff.mpr ⟨hb, ?_, ?_, ?_⟩ <;> rintro rfl <;> cases h

theorem isAtomChar_of_mem_positional (d : Decimal) : ∀ c ∈ d.positional, isAtomChar c := by
  intro c hc
  rcases mem_positional d c hc with hd | rfl | rfl
  · exact isAtomChar_of_isDigit hd
  · rfl
  · rfl

end Decimal

theorem Binary64.ofRatio_ne_nan (negative : Bool) (num den : Nat) :
    ofRatio negative num den ≠ .nan := by
  simp only [ofRatio]
  split <;> exact Binary64.noConfusion

theorem Decimal.toBinary64_ne_nan (d : Decimal) : d.toBinary64 ≠ .nan := by
  rw [toBinary64_eq_ofRatio]
  exact Binary64.ofRatio_ne_nan _ _ _

namespace Lexeme

theorem ofAtom_cases (cs : List Char) :
    (∃ b, ofAtom cs = .bool b) ∨ (∃ d, ofAtom cs = .number (Decimal.toBinary64 d)) ∨
      ofAtom cs = .symbol (String.ofList cs) := by
  unfold ofAtom
  split
  · exact .inl ⟨true, rfl⟩
  split
  · exact .inl ⟨false, rfl⟩
  split
  · exact .inr (.inl ⟨_, rfl⟩)
  · exact .inr (.inr rfl)

theorem toList_of_ofAtom {cs : List Char} {name : String} (h : ofAtom cs = .symbol name) :
    name.toList = cs := by
  rcases ofAtom_cases cs with ⟨b, ho⟩ | ⟨d, ho⟩ | ho <;> rw [h] at ho <;> cases ho
  exact String.toList_ofList

theorem ne_nan_of_ofAtom {cs : List Char} {x : Binary64} (h : ofAtom cs = .number x) :
    x ≠ .nan := by
  rcases ofAtom_cases cs with ⟨b, ho⟩ | ⟨d, ho⟩ | ho <;> rw [h] at ho <;> cases ho
  exact d.toBinary64_ne_nan

theorem ofAtom_of_read? {cs : List Char} {d : Decimal} (h : Numeral.read? cs = some d) :
    ofAtom cs = .number d.toBinary64 := by
  have ht : cs ≠ "true".toList := by
    rintro rfl
    cases h
  have hf : cs ≠ "false".toList := by
    rintro rfl
    cases h
  simp only [ofAtom, if_neg ht, if_neg hf, h]

end Lexeme

namespace Binary64

theorem ofAtom_text_finite (negative : Bool) (rank : Fin (2047 * 2 ^ (52 : Nat))) :
    Lexeme.ofAtom (Binary64.finite negative rank).text.toList =
      .number (.finite negative rank) := by
  obtain ⟨d, hr, hs, hv⟩ := Decimal.exists_read?_positional { shortestDecimal rank with negative }
  rw [text, String.toList_ofList, Lexeme.ofAtom_of_read? hr, Decimal.toBinary64_congr hs hv,
    toBinary64_shortestDecimal]

theorem ofAtom_text_infinity (negative : Bool) :
    Lexeme.ofAtom (Binary64.infinity negative).text.toList =
      .symbol (Binary64.infinity negative).text := by
  cases negative <;> rfl

theorem exists_atom_text (x : Binary64) : ∃ a : Atom, a.chars = x.text.toList := by
  cases x with
  | nan => exact ⟨⟨_, List.cons_ne_nil _ _, List.all_eq_true.mp rfl⟩, rfl⟩
  | infinity negative =>
    cases negative <;> exact ⟨⟨_, List.cons_ne_nil _ _, List.all_eq_true.mp rfl⟩, rfl⟩
  | finite negative rank =>
    have ht : (Binary64.finite negative rank).text.toList =
        Decimal.positional { shortestDecimal rank with negative } := String.toList_ofList
    rw [ht]
    exact ⟨⟨_, Decimal.positional_ne_nil _, Decimal.isAtomChar_of_mem_positional _⟩, rfl⟩

end Binary64

end LispCalc
