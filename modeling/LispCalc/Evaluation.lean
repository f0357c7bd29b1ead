import LispCalc.Environment
import LispCalc.Event
import LispCalc.Options

namespace LispCalc

/-- A failure undoes nothing: the environment and the log up to it stay. -/
structure Outcome (α : Type) where
  result : Except EvalError α
  environment : Environment
  log : List Event

def Evaluation (α : Type) : Type :=
  Environment → Outcome α

namespace Evaluation

variable {α β : Type}

def ofResult (result : Except EvalError α) : Evaluation α :=
  fun env => ⟨result, env, []⟩

def fail (error : EvalError) : Evaluation α :=
  ofResult (.error error)

/-- Runs `next` on the value of `first`; the events of `first` come first. -/
def bind (first : Evaluation α) (next : α → Evaluation β) : Evaluation β := fun env =>
  let before := first env
  match before.result with
  | .error e => ⟨.error e, before.environment, before.log⟩
  | .ok a =>
    let after := next a before.environment
    ⟨after.result, after.environment, before.log ++ after.log⟩

def map (f : α → β) (run : Evaluation α) : Evaluation β := fun env =>
  let outcome := run env
  ⟨outcome.result.map f, outcome.environment, outcome.log⟩

instance : Monad Evaluation where
  pure a := ofResult (.ok a)
  bind := bind
  map := map

theorem map_id (run : Evaluation α) : map id run = run := by
  funext env
  change Outcome.mk ((run env).result.map id) _ _ = _
  cases h : (run env).result <;> simp [Except.map, ← h]

theorem bind_assoc {γ : Type} (run : Evaluation α) (f : α → Evaluation β) (g : β → Evaluation γ) :
    bind (bind run f) g = bind run fun a => bind (f a) g := by
  funext env
  simp only [bind]
  cases (run env).result with
  | error e => rfl
  | ok a =>
    simp only
    cases (f a (run env).environment).result with
    | error e => rfl
    | ok b => simp only [List.append_assoc]

theorem bind_ofResult_ok (f : α → β) (run : Evaluation α) :
    bind run (fun a => ofResult (.ok (f a))) = map f run := by
  funext env
  simp only [bind, map, ofResult]
  cases (run env).result <;> simp [Except.map]

instance : LawfulMonad Evaluation :=
  LawfulMonad.mk' Evaluation map_id (fun _ _ => rfl) bind_assoc (fun _ _ => rfl) (fun _ _ => rfl)
    (fun _ _ => rfl) bind_ofResult_ok

def record (event : Event) : Evaluation Unit :=
  fun env => ⟨.ok (), env, [event]⟩

def lookup (name : String) : Evaluation Value :=
  fun env => ⟨env.lookup name, env, []⟩

def define (name : String) (value : Value) : Evaluation Unit :=
  fun env => ⟨.ok (), env.define name value, []⟩

def attempt (run : Evaluation α) : Evaluation (Except EvalError α) := fun env =>
  let outcome := run env
  ⟨.ok outcome.result, outcome.environment, outcome.log⟩

/-- The value of an argument or a condition. A lenient evaluation puts nil for an error, but never
for the depth limit. -/
def operand (policy : Policy) (role : Role) (run : Evaluation Value) : Evaluation Value := do
  match ← attempt run with
  | .ok value => return value
  | .error e =>
    if policy.swallowsErrors && !e.isRecursionLimit then
      record (.nilSubstituted role e)
      return .nil
    else fail e

/-- Binds a name to a value. A lenient evaluation binds it to nil when the value fails, and then
fails all the same. -/
def bindTo (policy : Policy) (name : String) (run : Evaluation Value) : Evaluation Value := do
  match ← attempt run with
  | .ok value =>
    if (Operator.ofName? name).isSome then
      record (.operatorShadowed name)
    record (.defined name value)
    define name value
    return value
  | .error e =>
    if policy.swallowsErrors then
      record (.nilBound name e)
      define name .nil
    fail e

end Evaluation

end LispCalc
