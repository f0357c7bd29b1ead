import LispCalc.Evaluation
import LispCalc.Host

namespace LispCalc

namespace Expr

open Evaluation

variable [Host]

mutual

/-- Evaluation where `budget` evaluations, this one included, may still be nested. -/
def eval (options : Options) (budget : Nat) (e : Expr) : Evaluation Value :=
  match budget, e with
  | 0, _ => fail (.recursionLimit options.maxDepth)
  | _ + 1, .atom value => do
    record (.visited .atom)
    return value
  | _ + 1, .symbol name => do
    record (.visited .symbol)
    lookup name
  | budget + 1, .sequence head args => do
    record (.visited .sequence)
    let callee ← head.eval options budget
    let builtin ← ofResult callee.asBuiltin
    let values ← evalArgs options budget args
    ofResult (builtin.call values)
  | budget + 1, .definition name value => do
    record (.visited .definition)
    bindTo options.policy name (value.eval options budget)
  | budget + 1, .conditional condition thenBranch elseBranch => do
    record (.visited .conditional)
    let value ← operand options.policy .condition (condition.eval options budget)
    if value.isTruthy then thenBranch.eval options budget
    else elseBranch.eval options budget
termination_by structural e

/-- The values of the arguments from left to right, up to the first error. -/
def evalArgs (options : Options) (budget : Nat) (args : List Expr) : Evaluation (List Value) :=
  match args with
  | [] => return []
  | arg :: args => do
    let value ← operand options.policy .argument (arg.eval options budget)
    (value :: ·) <$> evalArgs options budget args
termination_by structural args

end

end Expr

namespace Program

open Evaluation

variable [Host]

/-- Evaluates forms whose first one has the given index, and gives the last value. -/
def evalFrom (options : Options) (index : Nat) (last : Value) : List Expr → Evaluation Value
  | [] => return last
  | form :: forms => do
    record (.formStarted index form)
    match ← attempt (form.eval options options.maxDepth) with
    | .ok value => evalFrom options (index + 1) value forms
    | .error e =>
      record (.formFailed index e)
      fail e

/-- Evaluates forms in order up to the first error. The empty program has the value nil. -/
def eval (options : Options) (program : List Expr) : Evaluation Value :=
  evalFrom options 0 .nil program

end Program

end LispCalc
