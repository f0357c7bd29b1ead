import LispCalc.Proofs.Source.Printing
import Mathlib.Data.List.Forall2

namespace LispCalc

-- Zero and the powers of natural numbers are those of the core library, whatever else is imported.
attribute [local instance (high)] instPowNat Zero.ofOfNat0

namespace Binary64

/-- The number itself, but for a negative zero the positive one. -/
def canonical : Binary64 → Binary64
  | .finite negative rank => .finite (negative && rank ≠ 0) rank
  | x => x

theorem canonical_finite (s : Bool) {a : Fin (2047 * 2 ^ (52 : Nat))} (ha : a ≠ 0) :
    (finite s a).canonical = finite s a := by
  rw [canonical, decide_eq_true ha, Bool.and_true]

theorem canonical_zero (s : Bool) : (finite s 0).canonical = zero := by
  rw [canonical, decide_eq_false (not_not.mpr rfl), Bool.and_false, zero]

theorem canonical_eq_iff (x y : Binary64) :
    x.canonical = y.canonical ↔ x = y ∨ ∃ s t, x = .finite s 0 ∧ y = .finite t 0 := by
  cases x with
  | nan | infinity s => cases y <;> simp [canonical]
  | finite s a =>
    cases y with
    | nan | infinity t => simp [canonical]
    | finite t b =>
      constructor
      · intro h
        by_cases ha : a = 0
        · have hb : b = 0 := by
            rw [← ha]
            exact (finite.inj h).2.symm
          exact .inr ⟨s, t, by rw [ha], by rw [hb]⟩
        · have hb : b ≠ 0 := by
            rw [← (finite.inj h).2]
            exact ha
          rw [canonical_finite s ha, canonical_finite t hb] at h
          exact .inl h
      · rintro (h | ⟨s, t, hx, hy⟩)
        · rw [h]
        · rw [hx, hy, canonical_zero, canonical_zero]

theorem equals_iff (x y : Binary64) : x.equals y ↔ x ≠ .nan ∧ x.canonical = y.canonical := by
  cases x with
  | nan => simp only [equals, Bool.false_eq_true, ne_eq, not_true, false_and]
  | infinity s => cases y <;> simp [equals, canonical]
  | finite s a =>
    cases y with
    | nan | infinity t => simp [equals, canonical]
    | finite t b =>
      have hn : finite s a ≠ nan := Binary64.noConfusion
      rw [equals, Bool.and_eq_true, Bool.or_eq_true, decide_eq_true_eq, decide_eq_true_eq,
        decide_eq_true_eq, canonical_eq_iff, finite.injEq, and_iff_right hn]
      constructor
      · rintro ⟨rfl, rfl | rfl⟩
        · exact .inl ⟨rfl, rfl⟩
        · exact .inr ⟨s, t, rfl, rfl⟩
      · rintro (⟨rfl, rfl⟩ | ⟨s, t, hx, hy⟩)
        · exact ⟨rfl, .inl rfl⟩
        · cases hx
          cases hy
          exact ⟨rfl, .inr rfl⟩

theorem canonical_eq_nan_iff (x : Binary64) : x.canonical = .nan ↔ x = .nan := by
  cases x <;> simp [canonical]

end Binary64

namespace Value

/-- Of a built-in only the name is kept. -/
def canonical : Value → Value
  | .number x => .number x.canonical
  | .builtin b => .builtin ⟨b.name, .host 0⟩
  | v => v

theorem equals_iff (v w : Value) :
    v.equals w ↔ v ≠ .number .nan ∧ v.canonical = w.canonical := by
  cases v <;> cases w <;> simp [equals, canonical, Binary64.equals_iff]

theorem canonical_eq_nan_iff (v : Value) : v.canonical = .number .nan ↔ v = .number .nan := by
  cases v <;> simp [canonical, Binary64.canonical_eq_nan_iff]

/-- Values that are the same, numbers that are zero, whatever their signs, and built-ins of one
name, whatever they call. -/
inductive Agrees : Value → Value → Prop
  | same (v : Value) : Agrees v v
  | builtins {b b' : Builtin} (h : b.name = b'.name) : Agrees (.builtin b) (.builtin b')
  | zeros (s t : Bool) : Agrees (.number (.finite s 0)) (.number (.finite t 0))

theorem agrees_iff (v w : Value) : v.Agrees w ↔ v.canonical = w.canonical := by
  constructor
  · intro h
    cases h with
    | same => rfl
    | builtins h => simp [canonical, h]
    | zeros s t => simp [canonical, Binary64.canonical]
  · intro h
    cases v with
    | nil | bool =>
      cases w <;> cases h
      exact .same _
    | builtin b =>
      cases w with
      | builtin b' =>
        simp only [canonical, builtin.injEq, Builtin.mk.injEq, and_true] at h
        exact .builtins h
      | nil | bool | number => cases h
    | number x =>
      cases w with
      | nil | bool | builtin => cases h
      | number y =>
        injection h with h
        rcases (Binary64.canonical_eq_iff x y).mp h with rfl | ⟨s, t, rfl, rfl⟩
        · exact .same _
        · exact .zeros s t

end Value

namespace Expr

/-- Trees that differ in nothing but the signs of zeros and what built-ins of one name call: the
constructors, the numbers of arguments, the names and all other values are the same in every
place. -/
inductive Agrees : Expr → Expr → Prop
  | atom {v w : Value} (h : v.Agrees w) : Agrees (.atom v) (.atom w)
  | symbol (name : String) : Agrees (.symbol name) (.symbol name)
  | sequence {head head' : Expr} {args args' : List Expr} (hh : Agrees head head')
    (ha : List.Forall₂ Agrees args args') : Agrees (.sequence head args) (.sequence head' args')
  | definition (name : String) {value value' : Expr} (h : Agrees value value') :
    Agrees (.definition name value) (.definition name value')
  | conditional {condition condition' thenBranch thenBranch' elseBranch elseBranch' : Expr}
    (hc : Agrees condition condition') (ht : Agrees thenBranch thenBranch')
    (he : Agrees elseBranch elseBranch') :
    Agrees (.conditional condition thenBranch elseBranch)
      (.conditional condition' thenBranch' elseBranch')

mutual

def canonical : Expr → Expr
  | .atom value => .atom value.canonical
  | .symbol name => .symbol name
  | .sequence head args => .sequence head.canonical (canonicalAll args)
  | .definition name value => .definition name value.canonical
  | .conditional condition thenBranch elseBranch =>
    .conditional condition.canonical thenBranch.canonical elseBranch.canonical

def canonicalAll : List Expr → List Expr
  | [] => []
  | e :: es => e.canonical :: canonicalAll es

end

mutual

theorem atoms_canonical (a : Expr) : a.canonical.atoms = a.atoms.map Value.canonical := by
  cases a with
  | atom value => rfl
  | symbol name => rfl
  | sequence head args =>
    rw [canonical, atoms, atoms, List.map_append, atoms_canonical head, atomsAll_canonicalAll args]
  | definition name value => rw [canonical, atoms, atoms, atoms_canonical value]
  | conditional condition thenBranch elseBranch =>
    rw [canonical, atoms, atoms, List.map_append, List.map_append, atoms_canonical condition,
      atoms_canonical thenBranch, atoms_canonical elseBranch]
termination_by structural a

theorem atomsAll_canonicalAll (as : List Expr) :
    atomsAll (canonicalAll as) = (atomsAll as).map Value.canonical := by
  match as with
  | [] => rfl
  | a :: as =>
    rw [canonicalAll, atomsAll, atomsAll, List.map_append, atoms_canonical a,
      atomsAll_canonicalAll as]
termination_by structural as

end

mutual

theorem agrees_iff (a b : Expr) : a.Agrees b ↔ a.canonical = b.canonical := by
  cases a with
  | atom v =>
    cases b with
    | atom w =>
      rw [canonical, canonical, atom.injEq, ← Value.agrees_iff]
      exact ⟨fun | .atom h => h, .atom⟩
    | _ => exact ⟨nofun, nofun⟩
  | symbol x =>
    cases b with
    | symbol y =>
      rw [canonical, canonical, symbol.injEq]
      exact ⟨fun | .symbol _ => rfl, fun h => h ▸ .symbol x⟩
    | _ => exact ⟨nofun, nofun⟩
  | sequence f as =>
    cases b with
    | sequence g bs =>
      rw [canonical, canonical, sequence.injEq, ← agrees_iff f, ← forall₂_agrees_iff as]
      exact ⟨fun | .sequence hh ha => ⟨hh, ha⟩, fun h => .sequence h.1 h.2⟩
    | _ => exact ⟨nofun, nofun⟩
  | definition x a =>
    cases b with
    | definition y b =>
      rw [canonical, canonical, definition.injEq, ← agrees_iff a]
      exact ⟨fun | .definition _ h => ⟨rfl, h⟩, fun ⟨hx, h⟩ => hx ▸ .definition x h⟩
    | _ => exact ⟨nofun, nofun⟩
  | conditional a₁ a₂ a₃ =>
    cases b with
    | conditional b₁ b₂ b₃ =>
      rw [canonical, canonical, conditional.injEq, ← agrees_iff a₁, ← agrees_iff a₂,
        ← agrees_iff a₃]
      exact ⟨fun | .conditional h₁ h₂ h₃ => ⟨h₁, h₂, h₃⟩, fun h => .conditional h.1 h.2.1 h.2.2⟩
    | _ => exact ⟨nofun, nofun⟩
termination_by structural a

theorem forall₂_agrees_iff (as bs : List Expr) :
    List.Forall₂ Agrees as bs ↔ canonicalAll as = canonicalAll bs := by
  match as, bs with
  | [], [] => exact ⟨fun _ => rfl, fun _ => .nil⟩
  | [], b :: bs => exact ⟨nofun, nofun⟩
  | a :: as, [] => exact ⟨nofun, nofun⟩
  | a :: as, b :: bs =>
    rw [canonicalAll, canonicalAll, List.cons.injEq, List.forall₂_cons, agrees_iff a,
      forall₂_agrees_iff as]
termination_by structural as

end

mutual

/-- Equal expressions have one canonical form, and no NaN in it. -/
theorem equals_iff (a b : Expr) :
    a.equals b ↔ .number .nan ∉ a.atoms ∧ a.canonical = b.canonical := by
  cases a with
  | atom v =>
    cases b with
    | atom w =>
      simp only [equals, atoms, canonical, Value.equals_iff, List.mem_singleton, atom.injEq, ne_eq,
        eq_comm (a := v)]
    | _ => exact ⟨nofun, fun h => nomatch h.2⟩
  | symbol x =>
    cases b with
    | symbol y =>
      simp only [equals, atoms, canonical, decide_eq_true_eq, List.not_mem_nil, not_false_eq_true,
        true_and, symbol.injEq]
    | _ => exact ⟨nofun, fun h => nomatch h.2⟩
  | sequence f as =>
    cases b with
    | sequence g bs =>
      simp only [equals, atoms, canonical, Bool.and_eq_true, equals_iff f, equalsAll_iff as,
        List.mem_append, not_or, sequence.injEq, and_and_and_comm]
    | _ => exact ⟨nofun, fun h => nomatch h.2⟩
  | definition x a =>
    cases b with
    | definition y b =>
      simp only [equals, atoms, canonical, Bool.and_eq_true, decide_eq_true_eq, equals_iff a,
        definition.injEq, and_left_comm]
    | _ => exact ⟨nofun, fun h => nomatch h.2⟩
  | conditional a₁ a₂ a₃ =>
    cases b with
    | conditional b₁ b₂ b₃ =>
      simp only [equals, atoms, canonical, Bool.and_eq_true, equals_iff a₁, equals_iff a₂,
        equals_iff a₃, List.mem_append, not_or, conditional.injEq, and_assoc, and_left_comm]
    | _ => exact ⟨nofun, fun h => nomatch h.2⟩
termination_by structural a

theorem equalsAll_iff (as bs : List Expr) :
    equalsAll as bs ↔ .number .nan ∉ atomsAll as ∧ canonicalAll as = canonicalAll bs := by
  match as, bs with
  | [], [] => exact ⟨fun _ => ⟨nofun, rfl⟩, fun _ => rfl⟩
  | [], b :: bs => exact ⟨nofun, fun h => nomatch h.2⟩
  | a :: as, [] => exact ⟨nofun, fun h => nomatch h.2⟩
  | a :: as, b :: bs =>
    simp only [equalsAll, atomsAll, canonicalAll, Bool.and_eq_true, equals_iff a, equalsAll_iff as,
      List.mem_append, not_or, List.cons.injEq, and_and_and_comm]
termination_by structural as

end

theorem nan_mem_atomsAll_iff {as bs : List Expr} (h : canonicalAll as = canonicalAll bs) :
    .number .nan ∈ atomsAll as ↔ .number .nan ∈ atomsAll bs := by
  have hc (es : List Expr) :
      .number .nan ∈ atomsAll (canonicalAll es) ↔ .number .nan ∈ atomsAll es := by
    rw [atomsAll_canonicalAll, List.mem_map]
    simp only [Value.canonical_eq_nan_iff, exists_eq_right]
  rw [← hc as, h, hc bs]

/-- The equality of programs is symmetric and transitive, and a program equals itself unless NaN
occurs in it. Two programs are equal exactly if they agree, built-ins by their names and numbers
but for the signs of zeros, and have no NaN. -/
theorem equalsAll_partial_equivalence (a b c : List Expr) :
    equalsAll a b = equalsAll b a ∧
    (equalsAll a b → equalsAll b c → equalsAll a c) ∧
    (equalsAll a a ↔ .number .nan ∉ atomsAll a) ∧
    (equalsAll a b ↔ List.Forall₂ Agrees a b ∧ .number .nan ∉ atomsAll a) := by
  refine ⟨?_, ?_, ?_, ?_⟩
  · rw [Bool.eq_iff_iff, equalsAll_iff, equalsAll_iff]
    constructor
    · rintro ⟨hn, h⟩
      exact ⟨(nan_mem_atomsAll_iff h).not.mp hn, h.symm⟩
    · rintro ⟨hn, h⟩
      exact ⟨(nan_mem_atomsAll_iff h).not.mp hn, h.symm⟩
  · intro hab hbc
    obtain ⟨hn, hab⟩ := (equalsAll_iff a b).mp hab
    obtain ⟨-, hbc⟩ := (equalsAll_iff b c).mp hbc
    exact (equalsAll_iff a c).mpr ⟨hn, hab.trans hbc⟩
  · rw [equalsAll_iff]
    exact and_iff_left rfl
  · rw [equalsAll_iff, forall₂_agrees_iff, and_comm]

end Expr

end LispCalc
