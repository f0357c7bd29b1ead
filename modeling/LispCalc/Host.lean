import LispCalc.Operator.Apply

namespace LispCalc

/-- The functions that a program around the evaluator adds, each under a number. What one of them
gives depends on its arguments alone. -/
class Host where
  call : Nat → List Value → Except EvalError Value

/-- No function is added, so no number stands for one. -/
@[reducible] def Host.none : Host where
  call _ _ := .error (.notCallable Kind.nil.name)

def Builtin.call [Host] (b : Builtin) (args : List Value) : Except EvalError Value :=
  match b.callable with
  | .operator op => op.apply args
  | .host id => Host.call id args

end LispCalc
