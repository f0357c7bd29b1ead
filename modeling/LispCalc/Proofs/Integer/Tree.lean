import LispCalc.Proofs.Integer.Operators
import LispCalc.Proofs.Outcome
import LispCalc.Proofs.Visits

namespace LispCalc

variable {α β : Type}

namespace Outcome

/-- The outcome has the given result and leaves the environment as it was. -/
structure Gives (o : Outcome α) (env : Environment) (r : Except EvalError α) : Prop where
  result : o.result = r
  environment : o.environment = env

namespace Gives

variable {o : Outcome α} {env : Environment} {r : Except EvalError α}

theorem logged (h : o.Gives env r) (events : List Event) : (o.logged events).Gives env r :=
  ⟨h.result, h.environment⟩

theorem andThen (h : o.Gives env r) {next : α → Evaluation β} {f : α → Except EvalError β}
    (hn : ∀ a, (next a env).Gives env (f a)) : (o.andThen next).Gives env (r >>= f) := by
  cases r with
  | error e =>
    rw [andThen_of_error h.result]
    exact ⟨rfl, h.environment⟩
  | ok a =>
    rw [andThen_of_ok h.result, h.environment]
    exact (hn a).logged o.log

theorem andThen_ofResult (h : o.Gives env r) (f : α → Except EvalError β) :
    (o.andThen fun a => Evaluation.ofResult (f a)).Gives env (r >>= f) :=
  h.andThen fun _ => ⟨rfl, rfl⟩

end Gives

end Outcome

namespace Expr

variable [Host] {options : Options} {budget : Nat} {env : Environment}

theorem gives_pair (hs : options.policy = .strict) {left right : Expr}
    {r r' : Except EvalError Value} (hl : (left.eval options budget env).Gives env r)
    (hr : (right.eval options budget env).Gives env r') :
    (evalArgs options budget [left, right] env).Gives env
      (r >>= fun v => r' >>= fun w => .ok [v, w]) := by
  rw [evalArgs_cons, hs, Outcome.asOperand_strict]
  refine hl.andThen fun v => ?_
  have hr' : (evalArgs options budget [right] env).Gives env (r' >>= fun w => .ok [w]) := by
    rw [evalArgs_cons, hs, Outcome.asOperand_strict]
    exact hr.andThen fun w => ⟨rfl, rfl⟩
  rw [Evaluation.map_apply]
  have h := hr'.andThen_ofResult fun ws => .ok (v :: ws)
  cases r' <;> exact h

theorem gives_call (hs : options.policy = .strict) {op : Operator}
    (ho : env.get? op.name = some (.builtin op.builtin)) {left right : Expr}
    {r r' : Except EvalError Value}
    (hl : (left.eval options (budget + 1) env).Gives env r)
    (hr : (right.eval options (budget + 1) env).Gives env r') :
    ((sequence (.symbol op.name) [left, right]).eval options (budget + 2) env).Gives env
      (r >>= fun v => r' >>= fun w => op.apply [v, w]) := by
  have hc : (Value.builtin op.builtin).asBuiltin = .ok op.builtin := rfl
  have hn : env.lookup op.name = .ok (.builtin op.builtin) := by
    rw [Environment.lookup, ho]
  rw [eval_sequence, eval_symbol, Outcome.andThen_of_ok hn, Evaluation.callOn_of_ok hc]
  refine Outcome.Gives.logged (Outcome.Gives.logged ?_ _) _
  have h := (gives_pair hs hl hr).andThen_ofResult op.apply
  cases r with
  | error e => exact h
  | ok v => cases r' <;> exact h

end Expr

/-- Calls of integer operators, but for the shift to the left, on integers of 53 bits and a sign. -/
inductive IntegerTree where
  | literal (x : Binary64) (n : Int) (hx : x.value? = some (n : ℚ)) (hn : Fits 53 n)
  | call (op : IntegerOperator) (ho : op ≠ .shiftLeft) (left right : IntegerTree)

namespace IntegerTree

def expr : IntegerTree → Expr
  | .literal x _ _ _ => .atom (.number x)
  | .call op _ left right => .sequence (.symbol op.operator.name) [left.expr, right.expr]

def value? : IntegerTree → Option Int
  | .literal _ n _ _ => some n
  | .call op _ left right => do
    let a ← left.value?
    let b ← right.value?
    (op.onIntegers a b).toOption

/-- The fault of an operator whose operands denote these integers. -/
def faultAt (op : IntegerOperator) : Option Int → Option Int → List EvalError
  | some a, some b =>
    match op.onIntegers a b with
    | .error e => [e]
    | .ok _ => []
  | _, _ => []

/-- The faults in the tree: those on the left come first, then those on the right, and last that
of the call. -/
def faults : IntegerTree → List EvalError
  | .literal _ _ _ _ => []
  | .call op _ left right => left.faults ++ right.faults ++ faultAt op left.value? right.value?

/-- The result is the integer as a number, or the first fault. -/
inductive Exact : Option Int → List EvalError → Except EvalError Value → Prop
  | value {n : Int} {x : Binary64} (hn : Fits 53 n) (hx : x.value? = some (n : ℚ)) :
    Exact (some n) [] (.ok (.number x))
  | fault (e : EvalError) (es : List EvalError) : Exact none (e :: es) (.error e)

theorem Exact.call {op : IntegerOperator} (ho : op ≠ .shiftLeft) {a? b? : Option Int}
    {es es' : List EvalError} {r r' : Except EvalError Value} (hl : Exact a? es r)
    (hr : Exact b? es' r') :
    Exact (a?.bind fun a => b?.bind fun b => (op.onIntegers a b).toOption)
      (es ++ es' ++ faultAt op a? b?)
      (r >>= fun v => r' >>= fun w => op.operator.apply [v, w]) := by
  cases hl with
  | fault e es => exact .fault e _
  | value ha hx =>
    cases hr with
    | fault e es => exact .fault e _
    | @value b y hb hy =>
      rename_i a x
      change Exact (op.onIntegers a b).toOption (faultAt op (some a) (some b))
        (op.operator.apply [.number x, .number y])
      rw [op.apply_eq, Binary64.toInt_toInt64 hx (ha.of_le (by decide)),
        Binary64.toInt_toInt64 hy (hb.of_le (by decide)), faultAt]
      cases hc : op.onIntegers a b with
      | error e => exact .fault e []
      | ok c =>
        have hf := IntegerOperator.fits_of_onIntegers ho ha hb hc
        exact .value hf (Binary64.value?_ofInt hf.natAbs_le)

section

variable [Host] {options : Options} {env : Environment}

theorem exists_exact (hs : options.policy = .strict)
    (henv : ∀ op : IntegerOperator, op ≠ .shiftLeft →
      env.get? op.operator.name = some (.builtin op.operator.builtin))
    (t : IntegerTree) {budget : Nat} (hb : t.expr.height ≤ budget) :
    ∃ r, (t.expr.eval options budget env).Gives env r ∧ Exact t.value? t.faults r := by
  induction t generalizing budget with
  | literal x n hx hn =>
    obtain ⟨budget, rfl⟩ := Nat.exists_eq_add_of_le' hb
    exact ⟨.ok (.number x), ⟨rfl, rfl⟩, .value hn hx⟩
  | call op ho left right ihl ihr =>
    -- The name of the operator is one level below the call, as its operands are.
    have hh : 1 ≤ budget - 1 ∧ left.expr.height ≤ budget - 1 ∧ right.expr.height ≤ budget - 1 := by
      simp only [expr, Expr.height, Expr.argsHeight] at hb
      omega
    obtain ⟨budget, rfl⟩ : ∃ k, budget = k + 2 := ⟨budget - 2, by omega⟩
    obtain ⟨r, hl, hel⟩ := ihl hh.2.1
    obtain ⟨r', hr, her⟩ := ihr hh.2.2
    exact ⟨_, Expr.gives_call hs (henv op ho) hl hr, hel.call ho her⟩

/-- A tree without faults evaluates to the integer that it denotes, which needs no more bits than
the integers in it; any other one fails with its first fault. -/
theorem eval_exact (hs : options.policy = .strict)
    (henv : ∀ op : IntegerOperator, op ≠ .shiftLeft →
      env.get? op.operator.name = some (.builtin op.operator.builtin))
    (t : IntegerTree) (hb : t.expr.height ≤ options.maxDepth) :
    match t.faults with
    | [] => ∃ (n : Int) (x : Binary64), t.value? = some n ∧ -2 ^ 53 ≤ n ∧ n < 2 ^ 53 ∧
        x.value? = some (n : ℚ) ∧
        (t.expr.eval options options.maxDepth env).result = .ok (.number x)
    | e :: _ => (t.expr.eval options options.maxDepth env).result = .error e := by
  obtain ⟨r, hg, he⟩ := exists_exact hs henv t hb
  rw [hg.result]
  generalize t.value? = value?, t.faults = faults at he ⊢
  cases he with
  | value hn hx => exact ⟨_, _, rfl, hn.1, hn.2, hx, rfl⟩
  | fault e es => rfl

end

attribute [local instance] Host.none

def ofInt (n : Int) (hn : Fits 53 n) : IntegerTree :=
  .literal (.ofInt n) n (Binary64.value?_ofInt hn.natAbs_le) hn

theorem eval_exact_examples :
    let sound := call .mod (by decide) (call .bitXor (by decide) (ofInt (-7) (by decide))
      (ofInt 3 (by decide))) (ofInt 4 (by decide))
    let faulty := call .mod (by decide) (call .shiftRight (by decide) (ofInt 1 (by decide))
      (ofInt (-1) (by decide))) (call .mod (by decide) (ofInt 1 (by decide)) (ofInt 0 (by decide)))
    (∃ x, x.value? = some (-2 : ℚ) ∧
      (sound.expr.eval ⟨.strict, 3⟩ 3 .initial).result = .ok (.number x)) ∧
    (faulty.expr.eval ⟨.strict, 3⟩ 3 .initial).result =
      .error (.invalidShift ">>" (-1)) := by
  intro sound faulty
  have henv (op : IntegerOperator) (_ : op ≠ .shiftLeft) :
      Environment.initial.get? op.operator.name = some (.builtin op.operator.builtin) := by
    cases op <;> rfl
  have hs : (⟨.strict, 3⟩ : Options).policy = .strict := rfl
  constructor
  · have hf : sound.faults = [] := rfl
    have hv : sound.value? = some (-2) := rfl
    have h := eval_exact hs henv sound (Nat.le_refl 3)
    rw [hf] at h
    obtain ⟨n, x, hn, -, -, hx, h⟩ := h
    obtain rfl : n = -2 := Option.some.inj (hn.symm.trans hv)
    exact ⟨x, by exact_mod_cast hx, h⟩
  · have hf : faulty.faults =
        [.invalidShift ">>" (-1), .divisionByZero "mod"] := rfl
    have h := eval_exact hs henv faulty (Nat.le_refl 3)
    rw [hf] at h
    exact h

end IntegerTree

end LispCalc
