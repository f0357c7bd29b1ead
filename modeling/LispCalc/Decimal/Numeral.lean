import LispCalc.Decimal

namespace LispCalc

namespace Numeral

def takeSign : List Char → Bool × List Char
  | '-' :: cs => (true, cs)
  | '+' :: cs => (false, cs)
  | cs => (false, cs)

/-- The digits before and after the point, and what follows them. -/
def takeDigits? (cs : List Char) : Option (List Char × List Char × List Char) :=
  let whole := cs.takeWhile Char.isDigit
  match cs.dropWhile Char.isDigit with
  | '.' :: rest =>
    let fraction := rest.takeWhile Char.isDigit
    if whole = [] ∧ fraction = [] then none
    else some (whole, fraction, rest.dropWhile Char.isDigit)
  | rest => if whole = [] then none else some (whole, [], rest)

/-- The exponent that the whole of `cs` spells, zero for the empty text. -/
def exponent? : List Char → Option Int
  | [] => some 0
  | c :: cs =>
    let (negative, digits) := takeSign cs
    if (c = 'e' ∨ c = 'E') ∧ digits ≠ [] ∧ digits.all Char.isDigit then
      let magnitude := Nat.ofDigitChars 10 digits 0
      some (if negative then -magnitude else magnitude)
    else none

/-- The decimal that a numeral denotes, or nothing for any other text. -/
def read? (cs : List Char) : Option Decimal :=
  let (negative, unsigned) := takeSign cs
  match takeDigits? unsigned with
  | none => none
  | some (whole, fraction, rest) =>
    match exponent? rest with
    | none => none
    | some exponent =>
      some ⟨negative, Nat.ofDigitChars 10 (whole ++ fraction) 0, exponent - fraction.length⟩

end Numeral

end LispCalc
