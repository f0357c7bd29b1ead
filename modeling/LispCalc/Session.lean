import LispCalc.Expr.Eval

namespace LispCalc

variable [Host]

inductive Call where
  | interpret (program : List Expr)
  | eval (e : Expr)
  | define (name : String) (value : Value)
deriving Repr

/-- A call made with given options; a definition gives back the value it stores. -/
def Call.evaluation (options : Options) : Call → Evaluation Value
  | .interpret program => Program.eval options program
  | .eval e => e.eval options options.maxDepth
  | .define name value => do
    Evaluation.define name value
    return value

structure Session where
  options : Options := {}
  environment : Environment := .initial

namespace Session

def outcome (session : Session) (call : Call) : Outcome Value :=
  call.evaluation session.options session.environment

/-- The session after a call, whether the call failed or not. -/
def after (session : Session) (call : Call) : Session :=
  { session with environment := (session.outcome call).environment }

end Session

end LispCalc
