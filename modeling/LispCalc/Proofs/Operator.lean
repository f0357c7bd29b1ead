import LispCalc.Operator.Apply

namespace LispCalc

theorem error_of_bind {α β : Type} {x : Except EvalError α} {f : α → Except EvalError β}
    {e : EvalError} (h : x >>= f = .error e) : x = .error e ∨ ∃ a, x = .ok a ∧ f a = .error e := by
  cases x with
  | error e' =>
    cases h
    exact .inl rfl
  | ok a => exact .inr ⟨a, rfl, h⟩

theorem ok_of_bind {α β : Type} {x : Except EvalError α} {f : α → Except EvalError β} {b : β}
    (h : x >>= f = .ok b) : ∃ a, x = .ok a ∧ f a = .ok b := by
  cases x with
  | error e => cases h
  | ok a => exact ⟨a, rfl, h⟩

theorem Kind.eq_of_name_eq {k k' : Kind} (h : k.name = k'.name) : k = k' := by
  revert h
  cases k <;> cases k' <;> decide

namespace Value

theorem asNumber_error {op : String} {v : Value} {e : EvalError} (h : v.asNumber op = .error e) :
    v.kind ≠ .number ∧ e = .typeMismatch op Kind.number.name v.kind.name := by
  cases v with
  | number x => cases h
  | nil | bool | builtin =>
    cases h
    exact ⟨Kind.noConfusion, rfl⟩

theorem asNumber_ok {op : String} {v : Value} {x : Binary64} (h : v.asNumber op = .ok x) :
    v.kind = .number := by
  cases v with
  | number x => rfl
  | nil | bool | builtin => cases h

theorem asInteger_error {op : String} {v : Value} {e : EvalError}
    (h : v.asInteger op = .error e) : v.asNumber op = .error e := by
  cases v <;> cases h <;> rfl

theorem asInteger_ok {op : String} {v : Value} {a : Int64} (h : v.asInteger op = .ok a) :
    ∃ x, v.asNumber op = .ok x ∧ a = x.toInt64 := by
  cases v <;> cases h
  exact ⟨_, rfl, rfl⟩

theorem asBuiltin_error {v : Value} {e : EvalError} (h : v.asBuiltin = .error e) :
    v.kind ≠ .builtin ∧ e = .notCallable v.kind.name := by
  cases v with
  | builtin b => cases h
  | nil | number | bool =>
    cases h
    exact ⟨Kind.noConfusion, rfl⟩

end Value

namespace Operator

/-- The operators that take numbers only. -/
def numeric : List Operator :=
  [.add, .sub, .mul, .div, .mod, .bitAnd, .bitOr, .bitXor, .bitClear, .shiftRight, .shiftLeft]

/-- The ways in which an operator fails: by the number of its arguments, by the kind of the first
one that is no number, or by what the second one is. -/
inductive Fails (op : Operator) (args : List Value) : EvalError → Prop
  | arity (h : args.length ≠ 2) : Fails op args (.arityMismatch op.name 2 args.length)
  | kind {v : Value} (ho : op ∈ numeric) (hv : args.find? (·.kind ≠ .number) = some v) :
    Fails op args (.typeMismatch op.name Kind.number.name v.kind.name)
  | division (ho : op = .mod) : Fails op args (.divisionByZero op.name)
  | shift {count : Int} (ho : op = .shiftRight ∨ op = .shiftLeft) (hc : count < 0) :
    Fails op args (.invalidShift op.name count)

namespace Fails

variable {op : Operator} {v : Value} {args : List Value} {e : EvalError}

theorem first (ho : op ∈ numeric) (h : v.asNumber op.name = .error e) :
    Fails op (v :: args) e := by
  obtain ⟨hk, rfl⟩ := Value.asNumber_error h
  exact .kind ho (List.find?_cons_of_pos (by simp [hk]))

theorem second {w : Value} {x : Binary64} (ho : op ∈ numeric) (hv : v.asNumber op.name = .ok x)
    (h : w.asNumber op.name = .error e) : Fails op (v :: w :: args) e := by
  obtain ⟨hk, rfl⟩ := Value.asNumber_error h
  refine .kind ho ?_
  rw [List.find?_cons_of_neg (by simp [Value.asNumber_ok hv]),
    List.find?_cons_of_pos (by simp [hk])]

end Fails

theorem remainder_error {a b : Int64} {e : EvalError} (h : remainder a b = .error e) :
    e = .divisionByZero mod.name := by
  rw [remainder] at h
  split at h
  · cases h
    rfl
  · cases h

theorem shiftCount_error {op : Operator} {b : Int64} {e : EvalError}
    (h : shiftCount op b = .error e) : b.toInt < 0 ∧ e = .invalidShift op.name b.toInt := by
  rw [shiftCount] at h
  split at h
  · rename_i hb
    cases h
    exact ⟨Int64.lt_iff_toInt_lt.mp hb, rfl⟩
  · cases h

theorem shiftedRight_error {a b : Int64} {e : EvalError} (h : shiftedRight a b = .error e) :
    b.toInt < 0 ∧ e = .invalidShift shiftRight.name b.toInt := by
  rcases error_of_bind h with hc | ⟨count, -, h⟩
  · exact shiftCount_error hc
  · cases h

theorem shiftedLeft_error {a b : Int64} {e : EvalError} (h : shiftedLeft a b = .error e) :
    b.toInt < 0 ∧ e = .invalidShift shiftLeft.name b.toInt := by
  rcases error_of_bind h with hc | ⟨count, -, h⟩
  · exact shiftCount_error hc
  · cases h

theorem onNumbers_error {op : Operator} {f : Binary64 → Binary64 → Binary64} {v w : Value}
    {e : EvalError} (ho : op ∈ numeric) (h : onNumbers op f v w = .error e) :
    Fails op [v, w] e := by
  rcases error_of_bind h with hv | ⟨x, hv, h⟩
  · exact .first ho hv
  rcases error_of_bind h with hw | ⟨y, -, h⟩
  · exact .second ho hv hw
  · cases h

theorem onIntegers_error {op : Operator} {f : Int64 → Int64 → Except EvalError Int64}
    {v w : Value} {e : EvalError} (ho : op ∈ numeric) (h : onIntegers op f v w = .error e) :
    Fails op [v, w] e ∨ ∃ a b, f a b = .error e := by
  rcases error_of_bind h with hv | ⟨a, hv, h⟩
  · exact .inl (.first ho (Value.asInteger_error hv))
  rcases error_of_bind h with hw | ⟨b, -, h⟩
  · obtain ⟨x, hx, -⟩ := Value.asInteger_ok hv
    exact .inl (.second ho hx (Value.asInteger_error hw))
  rcases error_of_bind h with hf | ⟨c, -, h⟩
  · exact .inr ⟨a, b, hf⟩
  · cases h

theorem applyPair_error {op : Operator} {v w : Value} {e : EvalError}
    (h : op.applyPair v w = .error e) : Fails op [v, w] e := by
  cases op with
  | add | sub | mul | div => exact onNumbers_error (by decide) h
  | bitAnd | bitOr | bitXor | bitClear =>
    rcases onIntegers_error (by decide) h with hk | ⟨a, b, hf⟩
    · exact hk
    · cases hf
  | mod =>
    rcases onIntegers_error (by decide) h with hk | ⟨a, b, hf⟩
    · exact hk
    · rw [remainder_error hf]
      exact .division rfl
  | shiftRight =>
    rcases onIntegers_error (by decide) h with hk | ⟨a, b, hf⟩
    · exact hk
    · obtain ⟨hb, rfl⟩ := shiftedRight_error hf
      exact .shift (.inl rfl) hb
  | shiftLeft =>
    rcases onIntegers_error (by decide) h with hk | ⟨a, b, hf⟩
    · exact hk
    · obtain ⟨hb, rfl⟩ := shiftedLeft_error hf
      exact .shift (.inr rfl) hb
  | equal | and | or => cases h

theorem fails_of_apply {op : Operator} {args : List Value} {e : EvalError}
    (h : op.apply args = .error e) : Fails op args e := by
  match args, h with
  | [v, w], h => exact applyPair_error h
  | [], h | [_], h | _ :: _ :: _ :: _, h =>
    cases h
    exact .arity (by simp)

theorem onNumbers_ok {op : Operator} {f : Binary64 → Binary64 → Binary64} {v w r : Value}
    (h : onNumbers op f v w = .ok r) : ∃ x, r = .number x := by
  obtain ⟨x, -, h⟩ := ok_of_bind h
  obtain ⟨y, -, h⟩ := ok_of_bind h
  cases h
  exact ⟨f x y, rfl⟩

theorem onIntegers_ok {op : Operator} {f : Int64 → Int64 → Except EvalError Int64} {v w r : Value}
    (h : onIntegers op f v w = .ok r) : ∃ x, r = .number x := by
  obtain ⟨a, -, h⟩ := ok_of_bind h
  obtain ⟨b, -, h⟩ := ok_of_bind h
  obtain ⟨c, -, h⟩ := ok_of_bind h
  cases h
  exact ⟨.ofInt c.toInt, rfl⟩

theorem applyPair_ok {op : Operator} {v w r : Value} (h : op.applyPair v w = .ok r) :
    (∃ x, r = .number x) ∨ ∃ b, r = .bool b := by
  cases op with
  | add | sub | mul | div => exact .inl (onNumbers_ok h)
  | mod | bitAnd | bitOr | bitXor | bitClear | shiftRight | shiftLeft =>
    exact .inl (onIntegers_ok h)
  | equal | and | or =>
    cases h
    exact .inr ⟨_, rfl⟩

theorem apply_ok {op : Operator} {args : List Value} {r : Value} (h : op.apply args = .ok r) :
    (∃ x, r = .number x) ∨ ∃ b, r = .bool b := by
  unfold apply at h
  split at h
  · exact applyPair_ok h
  · cases h

end Operator

end LispCalc
