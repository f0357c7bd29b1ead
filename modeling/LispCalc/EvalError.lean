namespace LispCalc

/-- Causes of a failed evaluation. Functions and kinds of values are given by name. -/
inductive EvalError where
  | unboundSymbol (name : String)
  | notCallable (found : String)
  | typeMismatch (op expected found : String)
  | arityMismatch (name : String) (expected received : Nat)
  | divisionByZero (op : String)
  | invalidShift (op : String) (count : Int)
  | recursionLimit (limit : Nat)
deriving DecidableEq, Repr

namespace EvalError

def message : EvalError → String
  | .unboundSymbol name => "Unbound symbol `" ++ name ++ "`"
  | .notCallable found => "Value of kind `" ++ found ++ "` is not callable"
  | .typeMismatch op expected found =>
    "Type mismatch in `" ++ op ++ "`: expected " ++ expected ++ ", found " ++ found
  | .arityMismatch name expected received =>
    "Function `" ++ name ++ "` expected " ++ toString expected ++ " arguments but received "
      ++ toString received
  | .divisionByZero op => "Integer division by zero in `" ++ op ++ "`"
  | .invalidShift op count => "Negative shift count " ++ toString count ++ " in `" ++ op ++ "`"
  | .recursionLimit limit => "Evaluation exceeded the maximum depth of " ++ toString limit

def code : EvalError → String
  | .unboundSymbol _ => "runtime::unbound_symbol"
  | .notCallable _ => "runtime::not_callable"
  | .typeMismatch _ _ _ => "runtime::type_mismatch"
  | .arityMismatch _ _ _ => "runtime::arity_mismatch"
  | .divisionByZero _ => "runtime::division_by_zero"
  | .invalidShift _ _ => "runtime::invalid_shift"
  | .recursionLimit _ => "runtime::recursion_limit"

def help : EvalError → Option String
  | .unboundSymbol _ => some "bind it first with `(def name value)`"
  | .notCallable _ => some "the first element of a list must evaluate to a built-in"
  | .recursionLimit _ => some "raise LISP_EVAL_MAX_DEPTH or flatten the expression"
  | _ => none

def isRecursionLimit : EvalError → Bool
  | .recursionLimit _ => true
  | _ => false

end EvalError

end LispCalc
