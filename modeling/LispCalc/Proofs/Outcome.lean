import LispCalc.Expr.Eval

namespace LispCalc

variable {α β : Type}

namespace Outcome

def logged (events : List Event) (o : Outcome α) : Outcome α :=
  ⟨o.result, o.environment, events ++ o.log⟩

def andThen (o : Outcome α) (next : α → Evaluation β) : Outcome β :=
  match o.result with
  | .error e => ⟨.error e, o.environment, o.log⟩
  | .ok a => (next a o.environment).logged o.log

def asOperand (policy : Policy) (role : Role) (o : Outcome Value) : Outcome Value :=
  match o.result with
  | .ok _ => o
  | .error e =>
    if policy.swallowsErrors && !e.isRecursionLimit then
      ⟨.ok .nil, o.environment, o.log ++ [.nilSubstituted role e]⟩
    else o

def shadowing (name : String) : List Event :=
  if (Operator.ofName? name).isSome then [.operatorShadowed name] else []

theorem filterMap_shadowing {f : Event → Option α} {name : String}
    (h : f (.operatorShadowed name) = none) : (shadowing name).filterMap f = [] := by
  rw [shadowing]
  split
  · exact List.filterMap_cons_none h
  · rfl

def bound (policy : Policy) (name : String) (o : Outcome Value) : Outcome Value :=
  match o.result with
  | .ok value =>
    ⟨.ok value, o.environment.define name value, o.log ++ (shadowing name ++ [.defined name value])⟩
  | .error e =>
    if policy.swallowsErrors then
      ⟨.error e, o.environment.define name .nil, o.log ++ [.nilBound name e]⟩
    else o

def asForm (index : Nat) (o : Outcome Value) : Outcome Value :=
  match o.result with
  | .ok _ => o
  | .error e => ⟨.error e, o.environment, o.log ++ [.formFailed index e]⟩

theorem andThen_of_ok {o : Outcome α} {a : α} (h : o.result = .ok a) (next : α → Evaluation β) :
    o.andThen next = (next a o.environment).logged o.log := by
  simp only [andThen, h]

theorem andThen_of_error {o : Outcome α} {e : EvalError} (h : o.result = .error e)
    (next : α → Evaluation β) : o.andThen next = ⟨.error e, o.environment, o.log⟩ := by
  simp only [andThen, h]

theorem andThen_congr {o : Outcome α} {next next' : α → Evaluation β}
    (h : ∀ a, o.result = .ok a → next a o.environment = next' a o.environment) :
    o.andThen next = o.andThen next' := by
  cases ho : o.result with
  | error e => rw [andThen_of_error ho, andThen_of_error ho]
  | ok a => rw [andThen_of_ok ho, andThen_of_ok ho, h a ho]

theorem ok_of_andThen {o : Outcome α} {next : α → Evaluation β} {b : β}
    (h : (o.andThen next).result = .ok b) :
    ∃ a, o.result = .ok a ∧ (next a o.environment).result = .ok b := by
  cases ho : o.result with
  | error e =>
    rw [andThen_of_error ho] at h
    cases h
  | ok a =>
    rw [andThen_of_ok ho] at h
    exact ⟨a, rfl, h⟩

theorem asOperand_of_ok {o : Outcome Value} {v : Value} (h : o.result = .ok v) (policy : Policy)
    (role : Role) : o.asOperand policy role = o := by
  simp only [asOperand, h]

theorem asOperand_of_error {o : Outcome Value} {e : EvalError} (h : o.result = .error e)
    (policy : Policy) (role : Role) :
    o.asOperand policy role =
      if policy.swallowsErrors && !e.isRecursionLimit then
        ⟨.ok .nil, o.environment, o.log ++ [.nilSubstituted role e]⟩
      else o := by
  simp only [asOperand, h]

theorem asOperand_strict (o : Outcome Value) (role : Role) : o.asOperand .strict role = o := by
  cases h : o.result with
  | error e =>
    rw [asOperand_of_error h]
    rfl
  | ok v => exact asOperand_of_ok h _ _

theorem bound_of_ok {o : Outcome Value} {v : Value} (h : o.result = .ok v) (policy : Policy)
    (name : String) :
    o.bound policy name =
      ⟨.ok v, o.environment.define name v, o.log ++ (shadowing name ++ [.defined name v])⟩ := by
  simp only [bound, h]

theorem bound_of_error {o : Outcome Value} {e : EvalError} (h : o.result = .error e)
    (policy : Policy) (name : String) :
    o.bound policy name =
      if policy.swallowsErrors then
        ⟨.error e, o.environment.define name .nil, o.log ++ [.nilBound name e]⟩
      else o := by
  simp only [bound, h]

theorem ok_of_bound {o : Outcome Value} {policy : Policy} {name : String} {v : Value}
    (h : (o.bound policy name).result = .ok v) : o.result = .ok v := by
  cases ho : o.result with
  | error e =>
    rw [bound_of_error ho] at h
    split at h
    · cases h
    · rwa [ho] at h
  | ok w =>
    rw [bound_of_ok ho] at h
    exact h

theorem asForm_of_ok {o : Outcome Value} {v : Value} (h : o.result = .ok v) (index : Nat) :
    o.asForm index = o := by
  simp only [asForm, h]

theorem asForm_of_error {o : Outcome Value} {e : EvalError} (h : o.result = .error e)
    (index : Nat) :
    o.asForm index = ⟨.error e, o.environment, o.log ++ [.formFailed index e]⟩ := by
  simp only [asForm, h]

theorem log_prefix_andThen (o : Outcome α) (next : α → Evaluation β) :
    o.log <+: (o.andThen next).log := by
  unfold andThen
  split
  · exact List.prefix_rfl
  · exact List.prefix_append _ _

theorem log_infix_andThen_of_ok {o : Outcome α} {a : α} (h : o.result = .ok a)
    (next : α → Evaluation β) : (next a o.environment).log <:+: (o.andThen next).log := by
  rw [andThen_of_ok h, logged]
  exact (List.suffix_append _ _).isInfix

theorem log_prefix_asOperand (o : Outcome Value) (policy : Policy) (role : Role) :
    o.log <+: (o.asOperand policy role).log := by
  unfold asOperand
  split
  · exact List.prefix_rfl
  · split
    · exact List.prefix_append _ _
    · exact List.prefix_rfl

theorem log_prefix_bound (o : Outcome Value) (policy : Policy) (name : String) :
    o.log <+: (o.bound policy name).log := by
  unfold bound
  split
  · exact List.prefix_append _ _
  · split
    · exact List.prefix_append _ _
    · exact List.prefix_rfl

theorem log_prefix_asForm (o : Outcome Value) (index : Nat) :
    o.log <+: (o.asForm index).log := by
  unfold asForm
  split
  · exact List.prefix_rfl
  · exact List.prefix_append _ _

end Outcome

namespace Evaluation

@[simp] theorem bind_apply (run : Evaluation α) (next : α → Evaluation β) (env : Environment) :
    (run >>= next) env = (run env).andThen next := rfl

theorem record_bind_apply (event : Event) (next : Unit → Evaluation β) (env : Environment) :
    (record event >>= next) env = (next () env).logged [event] := rfl

theorem map_apply (f : α → β) (run : Evaluation α) (env : Environment) :
    (f <$> run) env = (run env).andThen fun a => ofResult (.ok (f a)) := by
  rw [← bind_apply, ← bind_pure_comp]
  rfl

theorem operand_apply (policy : Policy) (role : Role) (run : Evaluation Value)
    (env : Environment) :
    operand policy role run env = (run env).asOperand policy role := by
  simp only [operand, attempt, bind_apply, Outcome.andThen, Outcome.asOperand]
  cases h : (run env).result with
  | ok v => simp [Outcome.logged, pure, ofResult, ← h]
  | error e =>
    simp only
    split
    · simp [Outcome.logged, record, bind, Bind.bind, pure, ofResult]
    · simp [Outcome.logged, fail, ofResult, ← h]

theorem bindTo_apply (policy : Policy) (name : String) (run : Evaluation Value)
    (env : Environment) :
    bindTo policy name run env = (run env).bound policy name := by
  simp only [bindTo, attempt, bind_apply, Outcome.andThen, Outcome.bound]
  cases h : (run env).result with
  | ok v =>
    simp only [Outcome.shadowing]
    split <;> simp [Outcome.logged, record, define, bind, Bind.bind, pure, ofResult]
  | error e =>
    simp only
    split
    · simp [Outcome.logged, record, define, bind, Bind.bind, fail, ofResult]
    · simp [Outcome.logged, fail, ofResult, ← h]

section

variable [Host]

/-- Evaluates the arguments of a callee and applies it. -/
def callOn (args : Evaluation (List Value)) (callee : Value) : Evaluation Value := do
  let builtin ← ofResult callee.asBuiltin
  let values ← args
  ofResult (builtin.call values)

theorem callOn_of_error {callee : Value} {e : EvalError} (h : callee.asBuiltin = .error e)
    (args : Evaluation (List Value)) (env : Environment) :
    callOn args callee env = ⟨.error e, env, []⟩ := by
  rw [callOn, h]
  rfl

theorem callOn_of_ok {callee : Value} {b : Builtin} (h : callee.asBuiltin = .ok b)
    (args : Evaluation (List Value)) (env : Environment) :
    callOn args callee env = (args env).andThen fun values => ofResult (b.call values) := by
  rw [callOn, h]
  rfl

theorem callOn_congr {args args' : Evaluation (List Value)} {callee : Value} {env : Environment}
    (h : ∀ b, callee.asBuiltin = .ok b → args env = args' env) :
    callOn args callee env = callOn args' callee env := by
  cases hc : callee.asBuiltin with
  | error e => rw [callOn_of_error hc, callOn_of_error hc]
  | ok b => rw [callOn_of_ok hc, callOn_of_ok hc, h b hc]

end

def choose (thenBranch elseBranch : Evaluation Value) (condition : Value) : Evaluation Value :=
  if condition.isTruthy then thenBranch else elseBranch

theorem choose_congr {thenBranch thenBranch' elseBranch elseBranch' : Evaluation Value}
    {condition : Value} {env : Environment}
    (ht : condition.isTruthy = true → thenBranch env = thenBranch' env)
    (he : ¬ condition.isTruthy = true → elseBranch env = elseBranch' env) :
    choose thenBranch elseBranch condition env = choose thenBranch' elseBranch' condition env := by
  rw [choose, choose]
  split
  · exact ht ‹_›
  · exact he ‹_›

end Evaluation

variable [Host]

namespace Expr

open Evaluation

theorem eval_zero (options : Options) (e : Expr) (env : Environment) :
    e.eval options 0 env = ⟨.error (.recursionLimit options.maxDepth), env, []⟩ := by
  cases e <;> rfl

theorem eval_atom (options : Options) (budget : Nat) (value : Value) (env : Environment) :
    (atom value).eval options (budget + 1) env = ⟨.ok value, env, [.visited .atom]⟩ := rfl

theorem eval_symbol (options : Options) (budget : Nat) (name : String) (env : Environment) :
    (symbol name).eval options (budget + 1) env =
      ⟨env.lookup name, env, [.visited .symbol]⟩ := rfl

theorem eval_sequence (options : Options) (budget : Nat) (head : Expr) (args : List Expr)
    (env : Environment) :
    (sequence head args).eval options (budget + 1) env =
      ((head.eval options budget env).andThen (callOn (evalArgs options budget args))).logged
        [.visited .sequence] := rfl

theorem eval_definition (options : Options) (budget : Nat) (name : String) (value : Expr)
    (env : Environment) :
    (definition name value).eval options (budget + 1) env =
      ((value.eval options budget env).bound options.policy name).logged
        [.visited .definition] := by
  rw [← bindTo_apply]
  rfl

theorem eval_conditional (options : Options) (budget : Nat)
    (condition thenBranch elseBranch : Expr) (env : Environment) :
    (conditional condition thenBranch elseBranch).eval options (budget + 1) env =
      (((condition.eval options budget env).asOperand options.policy .condition).andThen
        (choose (thenBranch.eval options budget) (elseBranch.eval options budget))).logged
        [.visited .conditional] := by
  rw [← operand_apply]
  rfl

theorem evalArgs_nil (options : Options) (budget : Nat) (env : Environment) :
    evalArgs options budget [] env = ⟨.ok [], env, []⟩ := rfl

theorem evalArgs_cons (options : Options) (budget : Nat) (arg : Expr) (args : List Expr)
    (env : Environment) :
    evalArgs options budget (arg :: args) env =
      ((arg.eval options budget env).asOperand options.policy .argument).andThen fun value =>
        (value :: ·) <$> evalArgs options budget args := by
  rw [← operand_apply]
  rfl

end Expr

namespace Program

open Evaluation

theorem evalFrom_nil (options : Options) (index : Nat) (last : Value) (env : Environment) :
    evalFrom options index last [] env = ⟨.ok last, env, []⟩ := rfl

theorem evalFrom_cons (options : Options) (index : Nat) (last : Value) (form : Expr)
    (forms : List Expr) (env : Environment) :
    evalFrom options index last (form :: forms) env =
      (((form.eval options options.maxDepth env).asForm index).andThen fun value =>
        evalFrom options (index + 1) value forms).logged [.formStarted index form] := by
  rw [evalFrom, record_bind_apply, bind_apply]
  congr 1
  cases h : (form.eval options options.maxDepth env).result with
  | ok v =>
    rw [Outcome.asForm_of_ok h, Outcome.andThen_of_ok h, Outcome.andThen_of_ok (a := .ok v)]
    · rfl
    · exact congrArg Except.ok h
  | error e =>
    rw [Outcome.asForm_of_error h, Outcome.andThen_of_ok (a := .error e)]
    · rfl
    · exact congrArg Except.ok h

end Program

end LispCalc
