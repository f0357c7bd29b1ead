import LispCalc.Decimal

namespace LispCalc

-- Powers of natural numbers are those of the core library, whatever else is imported.
attribute [local instance (high)] instPowNat

namespace Binary64

/-- The exact value of a magnitude, with one place after the point for each halving of a unit. -/
def exactDecimal (rank : Fin (2047 * 2 ^ (52 : Nat))) : Decimal :=
  ⟨false, unitsOfRank rank * 5 ^ unitPlaces, -unitPlaces⟩

def ReadsAs (d : Decimal) (rank : Fin (2047 * 2 ^ (52 : Nat))) : Prop :=
  d.toBinary64 = .finite false rank

instance (d : Decimal) (rank : Fin (2047 * 2 ^ (52 : Nat))) : Decidable (ReadsAs d rank) :=
  inferInstanceAs (Decidable (_ = _))

/-- The place of the leading digit: the value lies in `[10 ^ place, 10 ^ (place + 1))`. -/
def leadingPlace (rank : Fin (2047 * 2 ^ (52 : Nat))) : Int :=
  let units := unitsOfRank rank
  if unitsPerOne ≤ units then (Nat.toDigits 10 (units / unitsPerOne)).length - 1
  else -(Nat.toDigits 10 (unitsPerOne / units)).length

/-- The better of the value's two neighbours among the multiples of `10 ^ place`, if one of them
reads back; of two that are equally near, the one above. -/
def neighbour? (rank : Fin (2047 * 2 ^ (52 : Nat))) (place : Int) : Option Decimal :=
  let num := unitsOfRank rank * 10 ^ (-place).toNat
  let den := unitsPerOne * 10 ^ place.toNat
  let below : Decimal := ⟨false, num / den, place⟩
  let above : Decimal := ⟨false, num / den + 1, place⟩
  if ReadsAs below rank then
    if ReadsAs above rank then
      some (if 2 * (num % den) < den then below else above)
    else some below
  else if ReadsAs above rank then some above
  else none

/-- The fewest digits that read back. Seventeen always suffice; the exact value closes the search
without that fact. -/
def shortestDecimal (rank : Fin (2047 * 2 ^ (52 : Nat))) : Decimal :=
  ((List.range 17).findSome? fun (digits : Nat) =>
    neighbour? rank (leadingPlace rank - digits)).getD (exactDecimal rank)

def text : Binary64 → String
  | .nan => "NaN"
  | .infinity negative => if negative then "-inf" else "inf"
  | .finite negative rank =>
    String.ofList (Decimal.positional { shortestDecimal rank with negative })

theorem readsAs_of_neighbour? {rank : Fin (2047 * 2 ^ (52 : Nat))} {place : Int} {d : Decimal}
    (h : neighbour? rank place = some d) : ReadsAs d rank := by
  simp only [neighbour?] at h
  split at h
  · rename_i hbelow
    split at h
    · rename_i habove
      injection h with h
      subst h
      split
      · exact hbelow
      · exact habove
    · injection h with h
      exact h ▸ hbelow
  · split at h
    · rename_i habove
      injection h with h
      exact h ▸ habove
    · cases h

end Binary64

end LispCalc
