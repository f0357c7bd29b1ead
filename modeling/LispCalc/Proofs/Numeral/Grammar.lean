import LispCalc.Proofs.Decimal.Nearest
import LispCalc.Proofs.Decimal.Text
import LispCalc.Proofs.Options
import Mathlib.Computability.RegularExpressions

namespace LispCalc

-- Powers of natural numbers are those of the core library, whatever else is imported.
attribute [local instance (high)] instPowNat

namespace Numeral

open Binary64 (signed signedBy)

def digitsValue (digits : List Char) : Nat :=
  Nat.ofDigitChars 10 digits 0

/-- An optional sign, and whether it is a minus. -/
inductive Sign : List Char → Bool → Prop
  | none : Sign [] false
  | plus : Sign ['+'] false
  | minus : Sign ['-'] true

/-- Digits, digits with a point behind or among them, or a point with digits behind it. -/
inductive Significand : List Char → ℚ → Prop
  | whole {whole : List Char} (hn : whole ≠ []) (hw : ∀ c ∈ whole, c.isDigit) :
    Significand whole (digitsValue whole)
  | pointed {whole fraction : List Char} (hn : whole ≠ []) (hw : ∀ c ∈ whole, c.isDigit)
    (hf : ∀ c ∈ fraction, c.isDigit) :
    Significand (whole ++ '.' :: fraction)
      (digitsValue whole + digitsValue fraction / 10 ^ fraction.length)
  | fraction {fraction : List Char} (hn : fraction ≠ []) (hf : ∀ c ∈ fraction, c.isDigit) :
    Significand ('.' :: fraction) (digitsValue fraction / 10 ^ fraction.length)

inductive Exponent : List Char → Int → Prop
  | none : Exponent [] 0
  | some {letter : Char} {sign digits : List Char} {negative : Bool}
    (hl : letter = 'e' ∨ letter = 'E') (hs : Sign sign negative) (hn : digits ≠ [])
    (hd : ∀ c ∈ digits, c.isDigit) :
    Exponent (letter :: (sign ++ digits)) (signed negative (digitsValue digits))

/-- A numeral with its sign and its exact value; zero is written with a sign too. -/
inductive Spells : List Char → Bool → ℚ → Prop
  | mk {sign significand exponent : List Char} {negative : Bool} {m : ℚ} {e : Int}
    (hs : Sign sign negative) (hm : Significand significand m) (he : Exponent exponent e) :
    Spells (sign ++ (significand ++ exponent)) negative (signedBy negative (m * 10 ^ e))

theorem digitsValue_append (digits digits' : List Char) :
    digitsValue (digits ++ digits') =
      10 ^ digits'.length * digitsValue digits + digitsValue digits' := by
  rw [digitsValue, Nat.ofDigitChars_append, Nat.ofDigitChars_eq_ofDigitChars_zero]
  rfl

/-- A point may stand anywhere among the digits of one number, which is then divided. -/
theorem digitsValue_append_div (whole fraction : List Char) :
    (digitsValue (whole ++ fraction) : ℚ) / 10 ^ fraction.length =
      digitsValue whole + digitsValue fraction / 10 ^ fraction.length := by
  have hp : (10 : ℚ) ^ fraction.length ≠ 0 := pow_ne_zero _ (by norm_num)
  rw [digitsValue_append, Nat.cast_add, Nat.cast_mul, Nat.cast_pow, Nat.cast_ofNat, add_div,
    mul_div_cancel_left₀ _ hp]

/-! The reader takes the parts of a numeral apart. -/

theorem takeSign_append {sign rest : List Char} {negative : Bool} (h : Sign sign negative)
    (hr : ∀ c ∈ rest.head?, c ≠ '-' ∧ c ≠ '+') : takeSign (sign ++ rest) = (negative, rest) := by
  cases h with
  | none => exact takeSign_unsigned hr
  | plus | minus => rfl

theorem exists_sign (cs : List Char) :
    ∃ sign negative rest, cs = sign ++ rest ∧ Sign sign negative ∧
      takeSign cs = (negative, rest) := by
  unfold takeSign
  split
  · exact ⟨['-'], true, _, rfl, .minus, rfl⟩
  · exact ⟨['+'], false, _, rfl, .plus, rfl⟩
  · exact ⟨[], false, cs, rfl, .none, rfl⟩

theorem head_digits {digits : List Char} (hn : digits ≠ []) (hd : ∀ c ∈ digits, c.isDigit)
    (rest : List Char) : ∀ c ∈ (digits ++ rest).head?, c.isDigit := by
  obtain ⟨d, ds, rfl⟩ := List.exists_cons_of_ne_nil hn
  intro c hc
  cases hc
  exact hd d List.mem_cons_self

theorem takeSign_digits {sign digits : List Char} {negative : Bool} (h : Sign sign negative)
    (hn : digits ≠ []) (hd : ∀ c ∈ digits, c.isDigit) :
    takeSign (sign ++ digits) = (negative, digits) := by
  have hh := head_digits hn hd []
  rw [List.append_nil] at hh
  exact takeSign_append h fun c hc => not_sign_of_isDigit (hh c hc)

theorem exists_whole (cs : List Char) :
    ∃ whole, (∀ c ∈ whole, c.isDigit) ∧ ((∃ behind, cs = whole ++ '.' :: behind) ∨
      ∃ rest, cs = whole ++ rest ∧ ∀ c ∈ rest.head?, c.isDigit = false ∧ c ≠ '.') := by
  refine ⟨cs.takeWhile Char.isDigit, fun c hc => mem_takeWhile hc, ?_⟩
  have hs := List.takeWhile_append_dropWhile (p := Char.isDigit) (l := cs)
  have hr := head_dropWhile (p := Char.isDigit) cs
  by_cases hp : (cs.dropWhile Char.isDigit).head? = some '.'
  · obtain ⟨behind, hb⟩ := List.head?_eq_some_iff.mp hp
    exact .inl ⟨behind, by rw [← hb, hs]⟩
  · refine .inr ⟨_, hs.symm, fun c hc => ⟨hr c hc, ?_⟩⟩
    rintro rfl
    exact hp hc

theorem Significand.takeDigits? {cs rest : List Char} {m : ℚ} (h : Significand cs m)
    (hr : ∀ c ∈ rest.head?, c.isDigit = false ∧ c ≠ '.') :
    ∃ whole fraction, Numeral.takeDigits? (cs ++ rest) = some (whole, fraction, rest) ∧
      m = digitsValue (whole ++ fraction) / 10 ^ fraction.length := by
  cases h with
  | whole hn hw =>
    refine ⟨cs, [], ?_, ?_⟩
    · rw [takeDigits?_unpointed hw hr, if_neg hn]
    · rw [List.append_nil, List.length_nil, pow_zero, div_one]
  | @pointed whole fraction hn hw hf =>
    obtain ⟨ht, hd⟩ := span_run hf fun c hc => (hr c hc).1
    refine ⟨whole, fraction, ?_, (digitsValue_append_div whole fraction).symm⟩
    rw [List.append_assoc, List.cons_append, takeDigits?_pointed hw, ht, hd, if_neg (hn ·.1)]
  | @fraction fraction hn hf =>
    obtain ⟨ht, hd⟩ := span_run hf fun c hc => (hr c hc).1
    refine ⟨[], fraction, ?_, rfl⟩
    have hp := takeDigits?_pointed (List.forall_mem_nil _) (fraction ++ rest)
    rwa [ht, hd, if_neg (hn ·.2)] at hp

theorem exists_significand {cs whole fraction rest : List Char}
    (h : takeDigits? cs = some (whole, fraction, rest)) :
    ∃ significand, cs = significand ++ rest ∧
      Significand significand (digitsValue (whole ++ fraction) / 10 ^ fraction.length) := by
  obtain ⟨run, hw, ⟨behind, rfl⟩ | ⟨rest', rfl, hr⟩⟩ := exists_whole cs
  · rw [takeDigits?_pointed hw] at h
    split at h
    · cases h
    rename_i hn
    cases h
    have hf : ∀ c ∈ behind.takeWhile Char.isDigit, c.isDigit := fun c hc => mem_takeWhile hc
    have hs := List.takeWhile_append_dropWhile (p := Char.isDigit) (l := behind)
    by_cases hwhole : whole = []
    · rw [hwhole, List.nil_append]
      exact ⟨_, congrArg _ hs.symm, .fraction (fun he => hn ⟨hwhole, he⟩) hf⟩
    · rw [digitsValue_append_div]
      refine ⟨_, ?_, .pointed hwhole hw hf⟩
      rw [List.append_assoc, List.cons_append, hs]
  · rw [takeDigits?_unpointed hw hr] at h
    split at h
    · cases h
    rename_i hn
    cases h
    rw [List.append_nil, List.length_nil, pow_zero, div_one]
    exact ⟨_, rfl, .whole hn hw⟩

theorem exponent?_eq_some_iff {cs : List Char} {e : Int} :
    exponent? cs = some e ↔ Exponent cs e := by
  constructor
  · intro h
    cases cs with
    | nil =>
      cases h
      exact .none
    | cons letter cs =>
      obtain ⟨sign, negative, digits, rfl, hs, ht⟩ := exists_sign cs
      simp only [exponent?, ht] at h
      split at h
      · rename_i hc
        obtain ⟨hl, hn, hd⟩ := hc
        cases h
        exact .some hl hs hn (List.all_eq_true.mp hd)
      · cases h
  · intro h
    cases h with
    | none => rfl
    | @some letter sign digits negative hl hs hn hd =>
      simp only [exponent?, takeSign_digits hs hn hd]
      rw [if_pos ⟨hl, hn, List.all_eq_true.mpr hd⟩]
      rfl

theorem Exponent.head {cs : List Char} {e : Int} (h : Exponent cs e) :
    ∀ c ∈ cs.head?, c.isDigit = false ∧ c ≠ '.' := by
  intro c hc
  cases h with
  | none => cases hc
  | some hl =>
    cases hc
    rcases hl with rfl | rfl <;> exact ⟨rfl, by decide⟩

theorem Significand.head {cs : List Char} {m : ℚ} (h : Significand cs m) (rest : List Char) :
    ∀ c ∈ (cs ++ rest).head?, c ≠ '-' ∧ c ≠ '+' := by
  intro c hc
  cases h with
  | whole hn hw => exact not_sign_of_isDigit (head_digits hn hw _ c hc)
  | pointed hn hw =>
    rw [List.append_assoc] at hc
    exact not_sign_of_isDigit (head_digits hn hw _ c hc)
  | fraction =>
    cases hc
    decide

theorem value_read (negative : Bool) (coefficient places : Nat) (e : Int) :
    Decimal.value ⟨negative, coefficient, e - places⟩ =
      signedBy negative (coefficient / 10 ^ places * 10 ^ e) := by
  rw [Decimal.value, zpow_sub₀ (by norm_num), zpow_natCast, mul_div_assoc', div_mul_eq_mul_div]

/-- The numerals are the texts that are read as decimals, and their values those of the decimals. -/
theorem spells_iff {cs : List Char} {negative : Bool} {q : ℚ} :
    Spells cs negative q ↔ ∃ d, read? cs = some d ∧ d.negative = negative ∧ d.value = q := by
  constructor
  · intro h
    cases h with
    | @mk sign significand exponent negative m e hs hm he =>
      obtain ⟨whole, fraction, hd, rfl⟩ := hm.takeDigits? he.head
      have ht := takeSign_append hs (hm.head exponent)
      refine ⟨_, ?_, rfl, value_read _ _ _ _⟩
      simp only [read?, ht, hd, exponent?_eq_some_iff.mpr he]
      rfl
  · rintro ⟨d, hd, rfl, rfl⟩
    obtain ⟨sign, negative, unsigned, rfl, hs, ht⟩ := exists_sign cs
    simp only [read?, ht] at hd
    split at hd
    · cases hd
    rename_i whole fraction rest hu
    split at hd
    · cases hd
    rename_i e he
    cases hd
    obtain ⟨significand, rfl, hm⟩ := exists_significand hu
    rw [value_read]
    exact .mk hs hm (exponent?_eq_some_iff.mp he)

theorem Spells.unique {cs : List Char} {negative negative' : Bool} {q q' : ℚ}
    (h : Spells cs negative q) (h' : Spells cs negative' q') : negative' = negative ∧ q' = q := by
  obtain ⟨d, hd, rfl, rfl⟩ := spells_iff.mp h
  obtain ⟨d', hd', rfl, rfl⟩ := spells_iff.mp h'
  rw [hd] at hd'
  cases hd'
  exact ⟨rfl, rfl⟩

/-! The texts of numerals as a regular expression. -/

open RegularExpression

def oneOf (cs : List Char) : RegularExpression Char :=
  cs.foldr (fun c r => char c + r) 0

def optional (r : RegularExpression Char) : RegularExpression Char :=
  1 + r

def decimalDigits : List Char :=
  ['0', '1', '2', '3', '4', '5', '6', '7', '8', '9']

def digitPattern : RegularExpression Char :=
  oneOf decimalDigits

def digitsPattern : RegularExpression Char :=
  digitPattern * star digitPattern

def signPattern : RegularExpression Char :=
  optional (oneOf ['+', '-'])

def significandPattern : RegularExpression Char :=
  digitsPattern * optional (char '.' * star digitPattern) + char '.' * digitsPattern

def exponentPattern : RegularExpression Char :=
  optional (oneOf ['e', 'E'] * (signPattern * digitsPattern))

/-- `[+-]? (D+ (. D*)? | . D+) ([eE] [+-]? D+)?`, with `D` for an ASCII digit. -/
def pattern : RegularExpression Char :=
  signPattern * (significandPattern * exponentPattern)

theorem mem_oneOf {cs text : List Char} : text ∈ (oneOf cs).matches' ↔ ∃ c ∈ cs, text = [c] := by
  induction cs with
  | nil =>
    refine iff_of_false (Set.notMem_empty _) ?_
    rintro ⟨c, hc, -⟩
    cases hc
  | cons c cs ih =>
    rw [oneOf, List.foldr_cons, matches'_add, Language.mem_add, List.exists_mem_cons_iff]
    exact or_congr_right ih

theorem mem_optional {r : RegularExpression Char} {text : List Char} :
    text ∈ (optional r).matches' ↔ text = [] ∨ text ∈ r.matches' := by
  rw [optional, matches'_add, Language.mem_add, matches'_epsilon, Language.mem_one]

theorem mem_mul {r r' : RegularExpression Char} {text : List Char} :
    text ∈ (r * r').matches' ↔ ∃ front ∈ r.matches', ∃ rest ∈ r'.matches', front ++ rest = text :=
  Language.mem_mul

theorem isDigit_iff {c : Char} : c.isDigit ↔ c ∈ decimalDigits := by
  have hall : ∀ d < 10, Nat.digitChar d ∈ decimalDigits := by decide
  have hdigits : decimalDigits.all Char.isDigit := by decide
  constructor
  · intro h
    obtain ⟨d, hd, rfl⟩ := exists_digitChar h
    exact hall d hd
  · exact List.all_eq_true.mp hdigits c

theorem mem_digitPattern {text : List Char} :
    text ∈ digitPattern.matches' ↔ ∃ c, c.isDigit ∧ text = [c] := by
  simp only [digitPattern, mem_oneOf, isDigit_iff]

theorem mem_star_digitPattern {text : List Char} :
    text ∈ (star digitPattern).matches' ↔ ∀ c ∈ text, c.isDigit := by
  rw [matches'_star, Language.mem_kstar]
  constructor
  · rintro ⟨parts, rfl, hp⟩ c hc
    obtain ⟨part, hm, hc⟩ := List.mem_flatten.mp hc
    obtain ⟨d, hd, rfl⟩ := mem_digitPattern.mp (hp part hm)
    rwa [List.mem_singleton.mp hc]
  · intro h
    -- A text is the concatenation of its characters, each a text of its own.
    refine ⟨text.map (fun c => [c]), (List.flatMap_singleton' text).symm, fun part hm => ?_⟩
    obtain ⟨c, hc, rfl⟩ := List.mem_map.mp hm
    exact mem_digitPattern.mpr ⟨c, h c hc, rfl⟩

theorem mem_digitsPattern {text : List Char} :
    text ∈ digitsPattern.matches' ↔ text ≠ [] ∧ ∀ c ∈ text, c.isDigit := by
  rw [digitsPattern, mem_mul]
  constructor
  · rintro ⟨front, hf, rest, hr, rfl⟩
    obtain ⟨c, hc, rfl⟩ := mem_digitPattern.mp hf
    exact ⟨List.cons_ne_nil _ _, List.forall_mem_cons.mpr ⟨hc, mem_star_digitPattern.mp hr⟩⟩
  · rintro ⟨hn, hd⟩
    obtain ⟨c, cs, rfl⟩ := List.exists_cons_of_ne_nil hn
    obtain ⟨hc, hcs⟩ := List.forall_mem_cons.mp hd
    exact ⟨[c], mem_digitPattern.mpr ⟨c, hc, rfl⟩, cs, mem_star_digitPattern.mpr hcs, rfl⟩

theorem mem_signPattern {text : List Char} :
    text ∈ signPattern.matches' ↔ ∃ negative, Sign text negative := by
  rw [signPattern, mem_optional, mem_oneOf]
  constructor
  · rintro (rfl | ⟨c, hc, rfl⟩)
    · exact ⟨_, .none⟩
    · rcases List.mem_pair.mp hc with rfl | rfl
      · exact ⟨_, .plus⟩
      · exact ⟨_, .minus⟩
  · rintro ⟨negative, h⟩
    cases h with
    | none => exact .inl rfl
    | plus => exact .inr ⟨'+', List.mem_cons_self, rfl⟩
    | minus => exact .inr ⟨'-', List.mem_cons_of_mem _ List.mem_cons_self, rfl⟩

theorem mem_significandPattern {text : List Char} :
    text ∈ significandPattern.matches' ↔ ∃ m, Significand text m := by
  have hpoint {r : RegularExpression Char} {text : List Char} :
      text ∈ (char '.' * r).matches' ↔ ∃ rest ∈ r.matches', '.' :: rest = text := by
    rw [mem_mul, matches'_char]
    exact exists_eq_left
  rw [significandPattern, matches'_add, Language.mem_add, mem_mul, hpoint]
  constructor
  · rintro (⟨whole, hw, rest, hr, rfl⟩ | ⟨fraction, hf, rfl⟩)
    · obtain ⟨hn, hw⟩ := mem_digitsPattern.mp hw
      rcases mem_optional.mp hr with rfl | hr
      · rw [List.append_nil]
        exact ⟨_, .whole hn hw⟩
      · obtain ⟨fraction, hf, rfl⟩ := hpoint.mp hr
        exact ⟨_, .pointed hn hw (mem_star_digitPattern.mp hf)⟩
    · obtain ⟨hn, hf⟩ := mem_digitsPattern.mp hf
      exact ⟨_, .fraction hn hf⟩
  · rintro ⟨m, h⟩
    cases h with
    | whole hn hw =>
      have hw := mem_digitsPattern.mpr ⟨hn, hw⟩
      exact .inl ⟨text, hw, [], mem_optional.mpr (.inl rfl), List.append_nil _⟩
    | pointed hn hw hf =>
      have hr := mem_optional.mpr (.inr (hpoint.mpr ⟨_, mem_star_digitPattern.mpr hf, rfl⟩))
      exact .inl ⟨_, mem_digitsPattern.mpr ⟨hn, hw⟩, _, hr, rfl⟩
    | fraction hn hf => exact .inr ⟨_, mem_digitsPattern.mpr ⟨hn, hf⟩, rfl⟩

theorem mem_exponentPattern {text : List Char} :
    text ∈ exponentPattern.matches' ↔ ∃ e, Exponent text e := by
  rw [exponentPattern, mem_optional, mem_mul]
  constructor
  · rintro (rfl | ⟨front, hf, rest, hr, rfl⟩)
    · exact ⟨_, .none⟩
    · obtain ⟨letter, hl, rfl⟩ := mem_oneOf.mp hf
      obtain ⟨front, hs, rest, hd, rfl⟩ := mem_mul.mp hr
      obtain ⟨negative, hs⟩ := mem_signPattern.mp hs
      obtain ⟨hn, hd⟩ := mem_digitsPattern.mp hd
      have he : Exponent (letter :: (front ++ rest)) _ := .some (List.mem_pair.mp hl) hs hn hd
      exact ⟨_, he⟩
  · rintro ⟨e, h⟩
    cases h with
    | none => exact .inl rfl
    | some hl hs hn hd =>
      have hl := mem_oneOf.mpr ⟨_, List.mem_pair.mpr hl, rfl⟩
      have hs := mem_signPattern.mpr ⟨_, hs⟩
      have hd := mem_digitsPattern.mpr ⟨hn, hd⟩
      exact .inr ⟨_, hl, _, mem_mul.mpr ⟨_, hs, _, hd, rfl⟩, rfl⟩

/-- The expression matches the texts that spell a number. -/
theorem mem_pattern {text : List Char} :
    text ∈ pattern.matches' ↔ ∃ negative q, Spells text negative q := by
  rw [pattern, mem_mul]
  constructor
  · rintro ⟨front, hs, rest, hr, rfl⟩
    obtain ⟨front, hm, rest, he, rfl⟩ := mem_mul.mp hr
    obtain ⟨negative, hs⟩ := mem_signPattern.mp hs
    obtain ⟨m, hm⟩ := mem_significandPattern.mp hm
    obtain ⟨e, he⟩ := mem_exponentPattern.mp he
    exact ⟨_, _, .mk hs hm he⟩
  · rintro ⟨negative, q, h⟩
    cases h with
    | mk hs hm he =>
      have hs := mem_signPattern.mpr ⟨_, hs⟩
      have hm := mem_significandPattern.mpr ⟨_, hm⟩
      have he := mem_exponentPattern.mpr ⟨_, he⟩
      exact ⟨_, hs, _, mem_mul.mpr ⟨_, hm, _, he, rfl⟩, rfl⟩

example : pattern.rmatch "-1.25E+107".toList := by decide

example : ¬ pattern.rmatch "1.25e".toList := by decide

theorem mem_pattern_iff_read? {text : List Char} :
    text ∈ pattern.matches' ↔ ∃ d, read? text = some d := by
  rw [mem_pattern]
  constructor
  · rintro ⟨negative, q, h⟩
    obtain ⟨d, hd, -⟩ := spells_iff.mp h
    exact ⟨d, hd⟩
  · rintro ⟨d, hd⟩
    exact ⟨_, _, spells_iff.mpr ⟨d, hd, rfl, rfl⟩⟩

end Numeral

end LispCalc
