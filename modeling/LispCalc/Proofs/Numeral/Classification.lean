import LispCalc.Proofs.Numeral.Grammar
import Mathlib.Data.List.TakeWhile

namespace LispCalc

namespace Numeral

def skipDigits? (cs : List Char) : Option (List Char) :=
  if cs.takeWhile Char.isDigit = [] then none else some (cs.dropWhile Char.isDigit)

def skipFraction : List Char → List Char
  | '.' :: cs => cs.dropWhile Char.isDigit
  | cs => cs

def skipBareFraction? : List Char → Option (List Char)
  | '.' :: cs => skipDigits? cs
  | _ => none

/-- Steps over digits and what there is of a fraction; a fraction alone is only looked for where
there are no digits. -/
def skipSignificand? (cs : List Char) : Option (List Char) :=
  ((skipDigits? cs).map skipFraction).or (skipBareFraction? cs)

/-- Steps over an exponent, if there is its letter. There is no way back to before the letter:
digits have to follow. -/
def skipExponent? : List Char → Option (List Char)
  | [] => some []
  | letter :: cs =>
    if letter = 'e' ∨ letter = 'E' then skipDigits? (takeSign cs).2 else some (letter :: cs)

/-- Steps over as much of a number as a text starts with, part by part. -/
def skip? (cs : List Char) : Option (List Char) :=
  (skipSignificand? (takeSign cs).2).bind skipExponent?

/-- Nothing is left of the text behind a number. -/
def looksNumeric (cs : List Char) : Bool :=
  skip? cs = some []

theorem skipDigits?_append {digits rest : List Char} (hd : ∀ c ∈ digits, c.isDigit)
    (hr : ∀ c ∈ rest.head?, c.isDigit = false) :
    skipDigits? (digits ++ rest) = if digits = [] then none else some rest := by
  obtain ⟨ht, hs⟩ := span_run hd hr
  rw [skipDigits?, ht, hs]

theorem skipDigits?_eq_nil_iff {cs : List Char} :
    skipDigits? cs = some [] ↔ cs ≠ [] ∧ ∀ c ∈ cs, c.isDigit := by
  rw [skipDigits?, Option.ite_none_left_eq_some, Option.some.injEq, List.dropWhile_eq_nil_iff]
  refine and_congr_left fun hd => not_congr ?_
  rw [List.takeWhile_eq_self_iff.mpr hd]

theorem skipSignificand?_eq (cs : List Char) :
    skipSignificand? cs = (takeDigits? cs).map fun parts => parts.2.2 := by
  -- Both readers first look at the digits in front, and then for a point behind them.
  obtain ⟨whole, hw, ⟨behind, rfl⟩ | ⟨rest, rfl, hr⟩⟩ := exists_whole cs
  · have hd := skipDigits?_append hw (stops_cons '.' behind rfl)
    rw [skipSignificand?, takeDigits?_pointed hw, hd]
    by_cases hn : whole = []
    · rw [if_pos hn, hn, List.nil_append, Option.map_none, Option.none_or, skipBareFraction?,
        skipDigits?]
      simp only [true_and, apply_ite (Option.map _), Option.map_none, Option.map_some]
    · rw [if_neg hn, if_neg (hn ·.1)]
      rfl
  · have hd := skipDigits?_append hw fun c hc => (hr c hc).1
    have hf : skipFraction rest = rest := by
      unfold skipFraction
      split
      · exact ((hr _ rfl).2 rfl).elim
      · rfl
    rw [skipSignificand?, takeDigits?_unpointed hw hr, hd]
    -- Without digits in front and without a point both fail.
    by_cases hn : whole = []
    · rw [if_pos hn, if_pos hn, hn, List.nil_append, Option.map_none, Option.none_or]
      unfold skipBareFraction?
      split
      · exact ((hr _ rfl).2 rfl).elim
      · rfl
    · rw [if_neg hn, if_neg hn, Option.map_some, hf]
      rfl

theorem skipExponent?_eq_nil_iff {cs : List Char} :
    skipExponent? cs = some [] ↔ ∃ e, Exponent cs e := by
  constructor
  · intro h
    cases cs with
    | nil => exact ⟨0, .none⟩
    | cons letter cs =>
      obtain ⟨sign, negative, digits, rfl, hs, ht⟩ := exists_sign cs
      rw [skipExponent?, ht] at h
      split at h
      · rename_i hl
        obtain ⟨hn, hd⟩ := skipDigits?_eq_nil_iff.mp h
        exact ⟨_, .some hl hs hn hd⟩
      · cases h
  · rintro ⟨e, h⟩
    cases h with
    | none => rfl
    | some hl hs hn hd =>
      rw [skipExponent?, if_pos hl, takeSign_digits hs hn hd]
      exact skipDigits?_eq_nil_iff.mpr ⟨hn, hd⟩

/-- The greedy reader comes to the end of just those texts that are read as decimals. -/
theorem looksNumeric_iff {cs : List Char} : looksNumeric cs ↔ ∃ d, read? cs = some d := by
  rw [looksNumeric, decide_eq_true_eq, skip?, skipSignificand?_eq]
  simp only [read?]
  cases takeDigits? (takeSign cs).2 with
  | none => simp only [Option.map_none, Option.bind_none, reduceCtorEq, exists_false]
  | some parts =>
    obtain ⟨whole, fraction, rest⟩ := parts
    simp only [Option.map_some, Option.bind_some, skipExponent?_eq_nil_iff, ← exponent?_eq_some_iff]
    cases exponent? rest with
    | none => simp only [reduceCtorEq, exists_false]
    | some e => simp only [Option.some.injEq, exists_eq']

end Numeral

/-- Reads a number from a text that is a numeral, or a name of an infinite number or of NaN. -/
def Binary64.ofText? (cs : List Char) : Option Binary64 :=
  match Numeral.read? cs with
  | some d => some d.toBinary64
  | none =>
    let (negative, unsigned) := Numeral.takeSign cs
    let name := String.ofList (unsigned.map Char.toLower)
    if name = "inf" ∨ name = "infinity" then some (.infinity negative)
    else if name = "nan" then some .nan
    else none

namespace Lexeme

def truthText (b : Bool) : List Char :=
  (if b then "true" else "false").toList

/-- What an atom means, found in two steps: only what looks like a number is read as one, and it
would be a symbol after all if it could not be read. -/
def classify (cs : List Char) : Lexeme :=
  if cs = truthText true then .bool true
  else if cs = truthText false then .bool false
  else if Numeral.looksNumeric cs then
    match Binary64.ofText? cs with
    | some x => .number x
    | none => .symbol (String.ofList cs)
  else .symbol (String.ofList cs)

theorem ofText?_of_read? {cs : List Char} {d : Decimal} (h : Numeral.read? cs = some d) :
    Binary64.ofText? cs = some d.toBinary64 := by
  rw [Binary64.ofText?, h]

theorem ofAtom_eq_classify (cs : List Char) : ofAtom cs = classify cs := by
  unfold ofAtom classify
  congr 2
  cases hd : Numeral.read? cs with
  | some d => rw [if_pos (Numeral.looksNumeric_iff.mpr ⟨d, hd⟩), ofText?_of_read? hd]
  | none =>
    have hn : ¬ Numeral.looksNumeric cs := by
      rw [Numeral.looksNumeric_iff, hd]
      exact fun ⟨_, h⟩ => nomatch h
    rw [if_neg hn]

theorem ofAtom_of_neither {cs : List Char} (hd : Numeral.read? cs = none)
    (hn : ∀ b, cs ≠ truthText b) : ofAtom cs = .symbol (String.ofList cs) := by
  have ht : cs ≠ "true".toList := hn true
  have hf : cs ≠ "false".toList := hn false
  simp only [ofAtom, if_neg ht, if_neg hf, hd]

theorem ofAtom_classes (cs : List Char) :
    (∃ d, Numeral.read? cs = some d ∧ ofAtom cs = .number d.toBinary64) ∨
    (∃ b, cs = truthText b ∧ ofAtom cs = .bool b) ∨
    (Numeral.read? cs = none ∧ (∀ b, cs ≠ truthText b) ∧
      ofAtom cs = .symbol (String.ofList cs)) := by
  cases hd : Numeral.read? cs with
  | some d => exact .inl ⟨d, rfl, ofAtom_of_read? hd⟩
  | none =>
    by_cases hb : ∃ b, cs = truthText b
    · obtain ⟨b, rfl⟩ := hb
      refine .inr (.inl ⟨b, rfl, ?_⟩)
      cases b <;> rfl
    · have hn (b : Bool) : cs ≠ truthText b := fun he => hb ⟨b, he⟩
      exact .inr (.inr ⟨rfl, hn, ofAtom_of_neither hd hn⟩)

theorem exists_ofAtom_eq_number_iff {cs : List Char} :
    (∃ x, ofAtom cs = .number x) ↔ ∃ d, Numeral.read? cs = some d := by
  constructor
  · rintro ⟨x, h⟩
    rcases ofAtom_classes cs with ⟨d, hd, -⟩ | ⟨b, -, he⟩ | ⟨-, -, he⟩
    · exact ⟨d, hd⟩
    all_goals
      rw [he] at h
      cases h
  · rintro ⟨d, hd⟩
    exact ⟨_, ofAtom_of_read? hd⟩

theorem ofAtom_eq_bool_iff {cs : List Char} {b : Bool} :
    ofAtom cs = .bool b ↔ cs = truthText b := by
  constructor
  · intro h
    rcases ofAtom_classes cs with ⟨d, -, he⟩ | ⟨b', hb, he⟩ | ⟨-, -, he⟩
    all_goals
      rw [he] at h
      cases h
    exact hb
  · rintro rfl
    cases b <;> rfl

theorem ofAtom_eq_symbol_iff {cs : List Char} {name : String} :
    ofAtom cs = .symbol name ↔
      name = String.ofList cs ∧ Numeral.read? cs = none ∧ ∀ b, cs ≠ truthText b := by
  constructor
  · intro h
    rcases ofAtom_classes cs with ⟨d, -, he⟩ | ⟨b, -, he⟩ | ⟨hd, hn, he⟩
    all_goals
      rw [he] at h
      cases h
    exact ⟨rfl, hd, hn⟩
  · rintro ⟨rfl, hd, hn⟩
    exact ofAtom_of_neither hd hn

/-- An atom is a number exactly if the whole of it matches the pattern of numerals, a truth value
if it is the text of one, and a symbol of that name otherwise. The greedy reader accepts just what
matches the pattern, and what it accepts can always be read. -/
theorem ofAtom_follows_pattern (a : Atom) :
    ((∃ x, ofAtom a.chars = .number x) ↔ a.chars ∈ Numeral.pattern.matches') ∧
    (∀ b, ofAtom a.chars = .bool b ↔ a.chars = truthText b) ∧
    (∀ name, ofAtom a.chars = .symbol name ↔ name = String.ofList a.chars ∧
      a.chars ∉ Numeral.pattern.matches' ∧ ∀ b, a.chars ≠ truthText b) ∧
    (Numeral.looksNumeric a.chars ↔ a.chars ∈ Numeral.pattern.matches') ∧
    (Numeral.looksNumeric a.chars → ∃ x, Binary64.ofText? a.chars = some x) ∧
    ofAtom a.chars = classify a.chars := by
  rw [Numeral.looksNumeric_iff, Numeral.mem_pattern_iff_read?]
  refine ⟨exists_ofAtom_eq_number_iff, fun b => ofAtom_eq_bool_iff, fun name => ?_, .rfl,
    fun ⟨d, hd⟩ => ⟨_, ofText?_of_read? hd⟩, ofAtom_eq_classify _⟩
  rw [ofAtom_eq_symbol_iff, ← Option.ne_none_iff_exists', not_not]

end Lexeme

end LispCalc
