import LispCalc.Proofs.Outcome

namespace LispCalc

namespace Expr

open Evaluation

variable [Host]

mutual

def evalUnlimited (policy : Policy) : Expr → Evaluation Value
  | .atom value => do
    record (.visited .atom)
    return value
  | .symbol name => do
    record (.visited .symbol)
    lookup name
  | .sequence head args => do
    record (.visited .sequence)
    let callee ← evalUnlimited policy head
    let builtin ← ofResult callee.asBuiltin
    let values ← evalArgsUnlimited policy args
    ofResult (builtin.call values)
  | .definition name value => do
    record (.visited .definition)
    bindTo policy name (evalUnlimited policy value)
  | .conditional condition thenBranch elseBranch => do
    record (.visited .conditional)
    let value ← operand policy .condition (evalUnlimited policy condition)
    if value.isTruthy then evalUnlimited policy thenBranch
    else evalUnlimited policy elseBranch
termination_by structural e => e

def evalArgsUnlimited (policy : Policy) : List Expr → Evaluation (List Value)
  | [] => return []
  | arg :: args => do
    let value ← operand policy .argument (evalUnlimited policy arg)
    (value :: ·) <$> evalArgsUnlimited policy args
termination_by structural args => args

end

theorem evalUnlimited_sequence (policy : Policy) (head : Expr) (args : List Expr)
    (env : Environment) :
    evalUnlimited policy (sequence head args) env =
      ((evalUnlimited policy head env).andThen (callOn (evalArgsUnlimited policy args))).logged
        [.visited .sequence] := rfl

theorem evalUnlimited_definition (policy : Policy) (name : String) (value : Expr)
    (env : Environment) :
    evalUnlimited policy (definition name value) env =
      ((evalUnlimited policy value env).bound policy name).logged [.visited .definition] := by
  rw [← bindTo_apply]
  rfl

theorem evalUnlimited_conditional (policy : Policy) (condition thenBranch elseBranch : Expr)
    (env : Environment) :
    evalUnlimited policy (conditional condition thenBranch elseBranch) env =
      (((evalUnlimited policy condition env).asOperand policy .condition).andThen
        (choose (evalUnlimited policy thenBranch) (evalUnlimited policy elseBranch))).logged
        [.visited .conditional] := by
  rw [← operand_apply]
  rfl

theorem evalArgsUnlimited_cons (policy : Policy) (arg : Expr) (args : List Expr)
    (env : Environment) :
    evalArgsUnlimited policy (arg :: args) env =
      ((evalUnlimited policy arg env).asOperand policy .argument).andThen fun value =>
        (value :: ·) <$> evalArgsUnlimited policy args := by
  rw [← operand_apply]
  rfl

end Expr

end LispCalc
