import LispCalc.EvalError
import LispCalc.Expr
import LispCalc.Notice

namespace LispCalc

/-- The places where a lenient evaluation puts nil for a failed expression. -/
inductive Role where
  | argument
  | condition
deriving DecidableEq, Repr

def Role.name : Role → String
  | .argument => "argument"
  | .condition => "condition"

inductive Event where
  /-- An expression of this form is evaluated. -/
  | visited (shape : Expr.Shape)
  | formStarted (index : Nat) (form : Expr)
  | formFailed (index : Nat) (error : EvalError)
  /-- A definition is about to hide the operator of this name. -/
  | operatorShadowed (name : String)
  | defined (name : String) (value : Value)
  /-- A name is about to be bound to nil because its definition failed. -/
  | nilBound (name : String) (error : EvalError)
  | nilSubstituted (role : Role) (error : EvalError)
deriving Repr

namespace Event

def notice? : Event → Option Notice
  | .visited _ => none
  | .formStarted index form =>
    some ⟨.debug, "evaluating top-level expression",
      [("index", toString index), ("expr", form.text)]⟩
  | .formFailed index error =>
    some ⟨.debug, "top-level evaluation failed",
      [("index", toString index), ("error", error.message)]⟩
  | .operatorShadowed name => some ⟨.debug, "definition shadows a builtin", [("name", name)]⟩
  | .defined name value => some ⟨.debug, "define", [("name", name), ("value", value.text)]⟩
  | .nilBound name error =>
    some ⟨.warn, "binding nil after failed definition",
      [("name", name), ("error", error.message)]⟩
  | .nilSubstituted role error =>
    some ⟨.warn, "substituting nil for failed " ++ role.name,
      [("role", role.name), ("error", error.message)]⟩

end Event

end LispCalc
