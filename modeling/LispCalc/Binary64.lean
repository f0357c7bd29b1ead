/-!
Binary64 numbers. The finite magnitudes, in increasing order, are numbered by their *rank*, which
is also the number that their exponent and fraction bits spell. Every finite magnitude is a whole
number of *units* of `2 ^ -1074`, so exact arithmetic on values is arithmetic on natural numbers.
-/

namespace LispCalc

-- Zero and the powers of natural numbers are those of the core library, whatever else is imported.
attribute [local instance (high)] instPowNat Zero.ofOfNat0

instance ranks_neZero : NeZero (2047 * 2 ^ (52 : Nat)) :=
  inferInstance

/-- Two numbers are `=` when their bits agree up to the payload of NaN, so the zeros differ. -/
inductive Binary64 where
  | nan
  | infinity (negative : Bool)
  | finite (negative : Bool) (rank : Fin (2047 * 2 ^ (52 : Nat)))
deriving DecidableEq, Repr

namespace Binary64

/-- The magnitude of a rank: the first `2 ^ 52` ranks are one unit apart, and from there on the step
doubles every `2 ^ 52` ranks. -/
def unitsOfRank (rank : Nat) : Nat :=
  if rank < 2 ^ (52 : Nat) then rank
  else (2 ^ (52 : Nat) + rank % 2 ^ (52 : Nat)) * 2 ^ (rank / 2 ^ (52 : Nat) - 1)

/-- The binary places of a unit. Irreducible, so that no proof computes powers of this size. -/
@[irreducible] def unitPlaces : Nat := 1074

def unitsPerOne : Nat := 2 ^ unitPlaces

theorem unitPlaces_eq : unitPlaces = 1074 := by
  rw [unitPlaces]

theorem unitsPerOne_pos : 0 < unitsPerOne :=
  Nat.two_pow_pos unitPlaces

def signed (negative : Bool) (magnitude : Nat) : Int :=
  if negative then -magnitude else magnitude

def zero : Binary64 := .finite false 0

instance : Inhabited Binary64 := ⟨zero⟩

def isNaN : Binary64 → Bool
  | .nan => true
  | _ => false

def isInfinite : Binary64 → Bool
  | .infinity _ => true
  | _ => false

def neg : Binary64 → Binary64
  | .nan => .nan
  | .infinity negative => .infinity (!negative)
  | .finite negative rank => .finite (!negative) rank

/-- Numeric equality: NaN equals nothing, and the two zeros are equal. -/
def equals : Binary64 → Binary64 → Bool
  | .finite s a, .finite t b => a = b && (s = t || a = 0)
  | .infinity s, .infinity t => s = t
  | _, _ => false

/-- Sign bit, eleven exponent bits, fifty-two fraction bits; every NaN is the quiet one without
payload. -/
def toBits : Binary64 → Nat
  | .nan => 2047 * 2 ^ (52 : Nat) + 2 ^ (51 : Nat)
  | .infinity negative => (if negative then 2 ^ (63 : Nat) else 0) + 2047 * 2 ^ (52 : Nat)
  | .finite negative rank => (if negative then 2 ^ (63 : Nat) else 0) + rank.val

/-- Reads the low sixty-four bits of `bits`. -/
def ofBits (bits : Nat) : Binary64 :=
  let negative := decide (2 ^ (63 : Nat) ≤ bits % 2 ^ (64 : Nat))
  let rank := bits % 2 ^ (63 : Nat)
  if h : rank < 2047 * 2 ^ (52 : Nat) then .finite negative ⟨rank, h⟩
  else if rank = 2047 * 2 ^ (52 : Nat) then .infinity negative
  else .nan

end Binary64

end LispCalc
