import LispCalc.Proofs.Decimal.Shortest
import LispCalc.Proofs.Decimal.Text
import LispCalc.Value

namespace LispCalc

-- Powers of natural numbers are those of the core library, whatever else is imported.
attribute [local instance (high)] instPowNat

/-- The whole of a text is one atom, and it means the lexeme. -/
structure IsAtomFor (text : String) (lexeme : Lexeme) : Prop where
  chars : ∃ a : Atom, a.chars = text.toList
  ofAtom_eq : Lexeme.ofAtom text.toList = lexeme
  tokenize_eq : tokenize text = .ok [⟨lexeme, ⟨0, byteLength text.toList⟩⟩]

theorem isAtomFor_of_chars {text : String} {lexeme : Lexeme} (h : ∃ a : Atom, a.chars = text.toList)
    (hl : Lexeme.ofAtom text.toList = lexeme) : IsAtomFor text lexeme := by
  refine ⟨h, hl, ?_⟩
  obtain ⟨a, ha⟩ := h
  have hends : Word.EndsBefore [] (.atom a) := stops_nil
  have hs := Token.scan_word (.atom a) hends 0
  rw [List.append_nil, Nat.zero_add, Token.scan_nil] at hs
  rw [← ha] at hl ⊢
  rw [tokenize, ← ha, ← hl]
  exact hs

namespace Binary64

/-- The text of a finite number is an atom without exponent that is read as that very number, the
sign of zero included, and no shorter one is. The texts of the others are names. -/
theorem text_reads_back (x : Binary64) :
    (∀ v, x.value? = some v →
      IsAtomFor (Value.number x).text (.number x) ∧
        (∀ c ∈ (Value.number x).text.toList, c.isDigit ∨ c = '.' ∨ c = '-') ∧
        ∃ d k, Numeral.read? (Value.number x).text.toList = some d ∧ d.negative = x.isNegative ∧
          d.toBinary64.toBits = x.toBits ∧ IsShortest v d.value x k) ∧
      (x.value? = none →
        IsAtomFor (Value.number x).text (.symbol (Value.number x).text) ∧
          Numeral.read? (Value.number x).text.toList = none) := by
  have hchars := exists_atom_text x
  cases x with
  | nan => exact ⟨fun _ hv => (nomatch hv), fun _ => ⟨isAtomFor_of_chars hchars rfl, rfl⟩⟩
  | infinity negative =>
    refine ⟨fun _ hv => (nomatch hv),
      fun _ => ⟨isAtomFor_of_chars hchars (ofAtom_text_infinity negative), ?_⟩⟩
    cases negative <;> rfl
  | finite negative rank =>
    refine ⟨fun v hv => ⟨isAtomFor_of_chars hchars (ofAtom_text_finite negative rank), ?_, ?_⟩,
      fun hv => (nomatch hv)⟩
    · rw [Value.text, text, String.toList_ofList]
      exact Decimal.mem_positional _
    · cases hv
      obtain ⟨d, hread, hs, hvalue⟩ :=
        Decimal.exists_read?_positional { shortestDecimal rank with negative }
      obtain ⟨k, hshort⟩ := exists_isShortest negative rank
      rw [Value.text, text, String.toList_ofList]
      refine ⟨d, k, hread, hs, ?_, ?_⟩
      · rw [Decimal.toBinary64_congr hs hvalue, toBinary64_shortestDecimal]
      · rwa [Decimal.value_congr hs hvalue]

end Binary64

end LispCalc
