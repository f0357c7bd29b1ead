import LispCalc.Environment
import LispCalc.Proofs.Binary64.Truncation
import LispCalc.Proofs.Integer.Operators
import LispCalc.Proofs.Operator

namespace LispCalc

namespace EvalError

/-- The name of the function whose failure an error reports. -/
def function? : EvalError → Option String
  | .typeMismatch name _ _ | .arityMismatch name _ _ | .divisionByZero name
  | .invalidShift name _ => some name
  | .unboundSymbol _ | .notCallable _ | .recursionLimit _ => none

end EvalError

namespace Operator

/-- The operators that give a number for any two numbers. -/
def numberValued : List Operator :=
  [.add, .sub, .mul, .div, .bitAnd, .bitOr, .bitXor, .bitClear]

theorem get?_initial_name (op : Operator) :
    Environment.initial.get? op.name = some (.builtin op.builtin) := by
  cases op <;> rfl

theorem Fails.function?_eq {op : Operator} {args : List Value} {e : EvalError}
    (h : Fails op args e) : e.function? = some op.name := by
  cases h <;> rfl

theorem apply_of_length_ne {op : Operator} {args : List Value} (h : args.length ≠ 2) :
    op.apply args = .error (.arityMismatch op.name 2 args.length) := by
  unfold apply
  split
  · exact (h rfl).elim
  · rfl

section

variable {op : Operator} {v w u : Value}

theorem first_mismatch (op : Operator) (h : [v, w].find? (·.kind ≠ .number) = some u) :
    v.asNumber op.name = .error (.typeMismatch op.name Kind.number.name u.kind.name) ∨
      ∃ x, v = .number x ∧
        w.asNumber op.name = .error (.typeMismatch op.name Kind.number.name u.kind.name) := by
  cases v with
  | number x =>
    right
    cases w with
    | number y => cases h
    | nil | bool | builtin =>
      cases h
      exact ⟨x, rfl, rfl⟩
  | nil | bool | builtin =>
    cases h
    exact .inl rfl

theorem onNumbers_of_find? (f : Binary64 → Binary64 → Binary64)
    (h : [v, w].find? (·.kind ≠ .number) = some u) :
    onNumbers op f v w = .error (.typeMismatch op.name Kind.number.name u.kind.name) := by
  rcases first_mismatch op h with hv | ⟨x, rfl, hw⟩
  · rw [onNumbers, hv]
    rfl
  · rw [onNumbers, hw]
    rfl

theorem onIntegers_of_find? (f : Int64 → Int64 → Except EvalError Int64)
    (h : [v, w].find? (·.kind ≠ .number) = some u) :
    onIntegers op f v w = .error (.typeMismatch op.name Kind.number.name u.kind.name) := by
  rcases first_mismatch op h with hv | ⟨x, rfl, hw⟩
  · rw [onIntegers, Value.asInteger, hv]
    rfl
  · rw [onIntegers, Value.asInteger, Value.asInteger, hw]
    rfl

theorem applyPair_of_find? (ho : op ∈ numeric)
    (h : [v, w].find? (·.kind ≠ .number) = some u) :
    op.applyPair v w = .error (.typeMismatch op.name Kind.number.name u.kind.name) := by
  cases op with
  | add | sub | mul | div => exact onNumbers_of_find? _ h
  | mod | bitAnd | bitOr | bitXor | bitClear | shiftRight | shiftLeft =>
    exact onIntegers_of_find? _ h
  | equal | and | or => exact absurd ho (by decide)

end

theorem exists_bool_of_not_numeric {op : Operator} (ho : op ∉ numeric) (v w : Value) :
    ∃ b, op.apply [v, w] = .ok (.bool b) := by
  cases op with
  | equal | and | or => exact ⟨_, rfl⟩
  | add | sub | mul | div | mod | bitAnd | bitOr | bitXor | bitClear | shiftRight | shiftLeft =>
    exact absurd (by decide) ho

theorem exists_number_of_numberValued {op : Operator} (ho : op ∈ numberValued) (x y : Binary64) :
    ∃ z, op.apply [.number x, .number y] = .ok (.number z) := by
  cases op with
  | add | sub | mul | div | bitAnd | bitOr | bitXor | bitClear => exact ⟨_, rfl⟩
  | mod | shiftRight | shiftLeft | equal | and | or => exact absurd ho (by decide)

theorem fails_iff_of_onIntegers (op : IntegerOperator) {x y : Binary64} {p : Prop} [Decidable p]
    {e : EvalError} {n : Int}
    (h : op.onIntegers x.truncated y.truncated = if p then .error e else .ok n) :
    (op.operator.apply [.number x, .number y] = .error e ↔ p) ∧
      (¬ p → ∃ z, op.operator.apply [.number x, .number y] = .ok (.number z)) := by
  rw [op.apply_eq, Binary64.toInt_toInt64_eq, Binary64.toInt_toInt64_eq, h]
  by_cases hp : p
  · rw [if_pos hp]
    exact ⟨iff_of_true rfl hp, fun hn => (hn hp).elim⟩
  · rw [if_neg hp]
    exact ⟨iff_of_false (fun he => nomatch he) hp, fun _ => ⟨_, rfl⟩⟩

theorem typeMismatch_iff {op : Operator} (ho : op ∈ numeric) {args : List Value}
    (hl : args.length = 2) (found : Kind) :
    op.apply args = .error (.typeMismatch op.name Kind.number.name found.name) ↔
      (args.find? (·.kind ≠ .number)).map Value.kind = some found := by
  obtain ⟨v, w, rfl⟩ := List.length_eq_two.mp hl
  constructor
  · intro h
    generalize he : EvalError.typeMismatch op.name Kind.number.name found.name = e at h
    cases fails_of_apply h with
    | kind _ hv =>
      injection he with _ _ hk
      rw [hv, Kind.eq_of_name_eq hk]
      rfl
    | arity | division | shift => cases he
  · intro h
    obtain ⟨u, hu, rfl⟩ := Option.map_eq_some_iff.mp h
    exact applyPair_of_find? ho hu

/-- Every operator is found under its own name and fails in the ways of its contract, each under
its own condition and naming the operator. It takes two arguments. The comparison and the logical
operators give a truth value for any two. The other ones take numbers, and report the kind of the
first argument that is none. Of two numbers `mod` refuses a second one that counts as zero, and
the shifts one that counts as negative; whatever else they are applied to, they give a number. -/
theorem apply_keeps_contract (op : Operator) (args : List Value) :
    Environment.initial.get? op.name = some (.builtin op.builtin) ∧
    (op.apply args = .error (.arityMismatch op.name 2 args.length) ↔ args.length ≠ 2) ∧
    (args.length = 2 →
      (op ∉ numeric → ∃ b, op.apply args = .ok (.bool b)) ∧
      (op ∈ numeric → ∀ found : Kind,
        op.apply args = .error (.typeMismatch op.name Kind.number.name found.name) ↔
          (args.find? (·.kind ≠ .number)).map Value.kind = some found)) ∧
    (∀ x y, args = [.number x, .number y] →
      (op ∈ numberValued → ∃ z, op.apply args = .ok (.number z)) ∧
      (op = mod →
        (op.apply args = .error (.divisionByZero op.name) ↔ y.truncated = 0) ∧
        (y.truncated ≠ 0 → ∃ z, op.apply args = .ok (.number z))) ∧
      (op = shiftRight ∨ op = shiftLeft →
        (op.apply args = .error (.invalidShift op.name y.truncated) ↔ y.truncated < 0) ∧
        (¬ y.truncated < 0 → ∃ z, op.apply args = .ok (.number z)))) ∧
    ∀ e, op.apply args = .error e → e.function? = some op.name := by
  refine ⟨get?_initial_name op, ⟨?_, apply_of_length_ne⟩, ?_, ?_, ?_⟩
  · intro h
    cases fails_of_apply h with
    | arity hl => exact hl
  · intro hl
    refine ⟨fun ho => ?_, fun ho found => typeMismatch_iff ho hl found⟩
    obtain ⟨v, w, rfl⟩ := List.length_eq_two.mp hl
    exact exists_bool_of_not_numeric ho v w
  · rintro x y rfl
    refine ⟨fun ho => exists_number_of_numberValued ho x y, ?_, ?_⟩
    · rintro rfl
      exact fails_iff_of_onIntegers .mod rfl
    · rintro (rfl | rfl)
      · exact fails_iff_of_onIntegers .shiftRight rfl
      · exact fails_iff_of_onIntegers .shiftLeft rfl
  · intro e h
    exact (fails_of_apply h).function?_eq

theorem apply_keeps_contract_failing :
    shiftRight.apply [.bool true, .nil] = .error (.typeMismatch ">>" "number" "bool") ∧
    mod.apply [.number (.infinity false), .number .nan] = .error (.divisionByZero "mod") ∧
    shiftLeft.apply [.number .nan, .number (.infinity true)] =
      .error (.invalidShift "<<" (-2 ^ 63)) ∧
    ∃ b, and.apply [.nil, .number .nan] = .ok (.bool b) := by
  refine ⟨?_, ?_, ?_, ?_⟩
  · obtain ⟨-, -, h, -⟩ := apply_keeps_contract shiftRight [.bool true, .nil]
    exact ((h rfl).2 (by decide) .bool).mpr rfl
  · obtain ⟨-, -, -, h, -⟩ := apply_keeps_contract mod [.number (.infinity false), .number .nan]
    exact ((h _ _ rfl).2.1 rfl).1.mpr rfl
  · obtain ⟨-, -, -, h, -⟩ :=
      apply_keeps_contract shiftLeft [.number .nan, .number (.infinity true)]
    exact ((h _ _ rfl).2.2 (.inr rfl)).1.mpr (by decide)
  · obtain ⟨-, -, h, -⟩ := apply_keeps_contract and [.nil, .number .nan]
    exact (h rfl).1 (by decide)

end Operator

end LispCalc
