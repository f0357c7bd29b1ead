import LispCalc.Proofs.Outcome
import LispCalc.Proofs.Session

namespace LispCalc

variable {α β : Type}

/-- What a counted computation leaves: the evaluations that are open then, and its outcome. -/
structure Counted (α : Type) where
  depth : Nat
  outcome : Outcome α

/-- Computations that are told how many evaluations are open, and may change that count. -/
def Counting (α : Type) : Type :=
  Nat → Environment → Counted α

namespace Counting

open Evaluation

def lift (run : Evaluation α) : Counting α :=
  fun depth env => ⟨depth, run env⟩

/-- The count goes on from `first` to `next`, and stays as `first` left it where that failed. -/
def bind (first : Counting α) (next : α → Counting β) : Counting β := fun depth env =>
  let before := first depth env
  match before.outcome.result with
  | .error e => ⟨before.depth, .error e, before.outcome.environment, before.outcome.log⟩
  | .ok a =>
    let after := next a before.depth before.outcome.environment
    ⟨after.depth, after.outcome.logged before.outcome.log⟩

instance : Monad Counting where
  pure a := lift (pure a)
  bind := bind

def attempt (run : Counting α) : Counting (Except EvalError α) := fun depth env =>
  let counted := run depth env
  ⟨counted.depth, .ok counted.outcome.result, counted.outcome.environment, counted.outcome.log⟩

/-- One more evaluation, refused where as many as `limit` are open. -/
def nested (limit : Nat) (run : Counting α) : Counting α := fun depth env =>
  if limit ≤ depth then ⟨depth, fail (.recursionLimit limit) env⟩
  else
    let counted := run (depth + 1) env
    ⟨counted.depth - 1, counted.outcome⟩

def operand (policy : Policy) (role : Role) (run : Counting Value) : Counting Value := do
  match ← attempt run with
  | .ok value => return value
  | .error e =>
    if policy.swallowsErrors && !e.isRecursionLimit then
      lift (record (.nilSubstituted role e))
      return .nil
    else lift (fail e)

def bindTo (policy : Policy) (name : String) (run : Counting Value) : Counting Value := do
  match ← attempt run with
  | .ok value =>
    if (Operator.ofName? name).isSome then
      lift (record (.operatorShadowed name))
    lift (record (.defined name value))
    lift (define name value)
    return value
  | .error e =>
    if policy.swallowsErrors then
      lift (record (.nilBound name e))
      lift (define name .nil)
    lift (fail e)

end Counting

namespace Expr

open Evaluation Counting

variable [Host]

mutual

def evalCounting (options : Options) : Expr → Counting Value
  | .atom value => nested options.maxDepth do
    lift (record (.visited .atom))
    return value
  | .symbol name => nested options.maxDepth do
    lift (record (.visited .symbol))
    lift (lookup name)
  | .sequence head args => nested options.maxDepth do
    lift (record (.visited .sequence))
    let callee ← evalCounting options head
    let builtin ← lift (ofResult callee.asBuiltin)
    let values ← evalArgsCounting options args
    lift (ofResult (builtin.call values))
  | .definition name value => nested options.maxDepth do
    lift (record (.visited .definition))
    Counting.bindTo options.policy name (evalCounting options value)
  | .conditional condition thenBranch elseBranch => nested options.maxDepth do
    lift (record (.visited .conditional))
    let value ← Counting.operand options.policy .condition (evalCounting options condition)
    if value.isTruthy then evalCounting options thenBranch
    else evalCounting options elseBranch
termination_by structural e => e

def evalArgsCounting (options : Options) : List Expr → Counting (List Value)
  | [] => return []
  | arg :: args => do
    let value ← Counting.operand options.policy .argument (evalCounting options arg)
    (value :: ·) <$> evalArgsCounting options args
termination_by structural args => args

end

end Expr

namespace Program

open Evaluation Counting

def evalFromCounting [Host] (options : Options) (index : Nat) (last : Value) :
    List Expr → Counting Value
  | [] => return last
  | form :: forms => do
    lift (record (.formStarted index form))
    match ← Counting.attempt (form.evalCounting options) with
    | .ok value => evalFromCounting options (index + 1) value forms
    | .error e =>
      lift (record (.formFailed index e))
      lift (fail e)

end Program

def Call.counting [Host] (options : Options) : Call → Counting Value
  | .interpret program => Program.evalFromCounting options 0 .nil program
  | .eval e => e.evalCounting options
  | .define name value => .lift do
    Evaluation.define name value
    return value

/-- A session that keeps the count from call to call. -/
structure CountingSession where
  options : Options := {}
  environment : Environment := .initial
  depth : Nat := 0

namespace CountingSession

variable [Host]

def outcome (session : CountingSession) (call : Call) : Outcome Value :=
  (call.counting session.options session.depth session.environment).outcome

def after (session : CountingSession) (call : Call) : CountingSession :=
  let counted := call.counting session.options session.depth session.environment
  { session with environment := counted.outcome.environment, depth := counted.depth }

def afterAll (session : CountingSession) (calls : List Call) : CountingSession :=
  calls.foldl after session

end CountingSession

/-- Run with `depth` evaluations open, `counted` does what `plain` does and puts the count back. -/
def Restores (depth : Nat) (counted : Counting α) (plain : Evaluation α) : Prop :=
  ∀ env, counted depth env = ⟨depth, plain env⟩

namespace Restores

open Evaluation

variable {depth : Nat}

theorem lift (run : Evaluation α) : Restores depth (.lift run) run :=
  fun _ => rfl

theorem bind {first : Counting α} {run : Evaluation α} {next : α → Counting β}
    {next' : α → Evaluation β} (h : Restores depth first run)
    (hn : ∀ a, Restores depth (next a) (next' a)) :
    Restores depth (first >>= next) (run >>= next') := by
  intro env
  change Counting.bind first next depth env = ⟨depth, (run env).andThen next'⟩
  rw [Counting.bind, h env]
  cases ho : (run env).result with
  | error e => rw [Outcome.andThen_of_error ho]
  | ok a =>
    rw [Outcome.andThen_of_ok ho]
    simp only [hn a (run env).environment]

theorem map {counted : Counting α} {run : Evaluation α} (h : Restores depth counted run)
    (f : α → β) : Restores depth (f <$> counted) (f <$> run) := by
  rw [← bind_pure_comp f run]
  exact h.bind fun a => lift (pure (f a))

theorem attempt {counted : Counting α} {run : Evaluation α} (h : Restores depth counted run) :
    Restores depth counted.attempt (Evaluation.attempt run) := by
  intro env
  rw [Counting.attempt, h env]
  rfl

theorem operand {counted : Counting Value} {run : Evaluation Value}
    (h : Restores depth counted run) (policy : Policy) (role : Role) :
    Restores depth (counted.operand policy role) (Evaluation.operand policy role run) := by
  apply h.attempt.bind
  intro result
  cases result with
  | ok value => exact lift _
  | error e =>
    dsimp only
    split
    · exact (lift _).bind fun _ => lift _
    · exact lift _

theorem bindTo {counted : Counting Value} {run : Evaluation Value}
    (h : Restores depth counted run) (policy : Policy) (name : String) :
    Restores depth (counted.bindTo policy name) (Evaluation.bindTo policy name run) := by
  apply h.attempt.bind
  intro result
  cases result with
  | ok value =>
    dsimp only
    split
    · exact (lift _).bind fun _ => (lift _).bind fun _ => (lift _).bind fun _ => lift _
    · exact (lift _).bind fun _ => (lift _).bind fun _ => lift _
  | error e =>
    dsimp only
    split
    · exact (lift _).bind fun _ => (lift _).bind fun _ => lift _
    · exact lift _

end Restores

variable [Host]

namespace Expr

open Evaluation

theorem restores_nested {options : Options} {depth : Nat} {e : Expr} {counted : Counting Value}
    (h : Restores (depth + 1) counted (e.eval options (options.maxDepth - (depth + 1) + 1))) :
    Restores depth (counted.nested options.maxDepth)
      (e.eval options (options.maxDepth - depth)) := by
  intro env
  rw [Counting.nested]
  split
  · rename_i hd
    rw [Nat.sub_eq_zero_of_le hd, eval_zero]
    rfl
  · rename_i hd
    have hb : options.maxDepth - (depth + 1) + 1 = options.maxDepth - depth := by omega
    rw [h env, hb]
    rfl

mutual

theorem evalCounting_restores (options : Options) (e : Expr) (depth : Nat) :
    Restores depth (e.evalCounting options) (e.eval options (options.maxDepth - depth)) := by
  cases e with
  | atom value =>
    apply restores_nested
    exact (Restores.lift _).bind fun _ => .lift _
  | symbol name =>
    apply restores_nested
    exact (Restores.lift _).bind fun _ => .lift _
  | sequence head args =>
    apply restores_nested
    apply (Restores.lift _).bind
    intro _
    apply (evalCounting_restores options head (depth + 1)).bind
    intro callee
    apply (Restores.lift _).bind
    intro op
    apply (evalArgsCounting_restores options args (depth + 1)).bind
    intro values
    exact .lift _
  | definition name value =>
    apply restores_nested
    apply (Restores.lift _).bind
    intro _
    exact (evalCounting_restores options value (depth + 1)).bindTo options.policy name
  | conditional condition thenBranch elseBranch =>
    apply restores_nested
    apply (Restores.lift _).bind
    intro _
    apply ((evalCounting_restores options condition (depth + 1)).operand _ _).bind
    intro value
    split
    · exact evalCounting_restores options thenBranch (depth + 1)
    · exact evalCounting_restores options elseBranch (depth + 1)
termination_by structural e

theorem evalArgsCounting_restores (options : Options) (args : List Expr) (depth : Nat) :
    Restores depth (evalArgsCounting options args)
      (evalArgs options (options.maxDepth - depth) args) := by
  match args with
  | [] => exact .lift _
  | arg :: args =>
    apply ((evalCounting_restores options arg depth).operand _ _).bind
    intro value
    exact (evalArgsCounting_restores options args depth).map _
termination_by structural args

end

end Expr

theorem Program.evalFromCounting_restores (options : Options) (index : Nat) (last : Value)
    (program : List Expr) :
    Restores 0 (evalFromCounting options index last program)
      (evalFrom options index last program) := by
  induction program generalizing index last with
  | nil => exact .lift _
  | cons form forms ih =>
    apply (Restores.lift _).bind
    intro _
    apply (form.evalCounting_restores options 0).attempt.bind
    intro result
    cases result with
    | ok value => exact ih (index + 1) value
    | error e => exact (Restores.lift _).bind fun _ => .lift _

theorem Call.counting_restores (options : Options) (call : Call) :
    Restores 0 (call.counting options) (call.evaluation options) := by
  cases call with
  | interpret program => exact Program.evalFromCounting_restores options 0 .nil program
  | eval e => exact e.evalCounting_restores options 0
  | define name value => exact .lift _

def Session.counting (session : Session) : CountingSession :=
  ⟨session.options, session.environment, 0⟩

namespace CountingSession

theorem counting_outcome (session : Session) (call : Call) :
    session.counting.outcome call = session.outcome call :=
  congrArg Counted.outcome (call.counting_restores session.options session.environment)

theorem counting_after (session : Session) (call : Call) :
    session.counting.after call = (session.after call).counting := by
  have h := call.counting_restores session.options session.environment
  simp only [after, Session.counting, h]
  rfl

/-- Between its calls, no session has an evaluation open. -/
theorem counting_afterAll (session : Session) (calls : List Call) :
    session.counting.afterAll calls = (session.afterAll calls).counting := by
  induction calls generalizing session with
  | nil => rfl
  | cons call calls ih =>
    rw [Session.afterAll_cons, ← ih, ← counting_after]
    rfl

end CountingSession

end LispCalc
