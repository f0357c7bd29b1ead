import LispCalc.Session

namespace LispCalc

variable [Host]

namespace Session

def afterAll (session : Session) (calls : List Call) : Session :=
  calls.foldl after session

def transcript (session : Session) : List Call → List (Call × Outcome Value)
  | [] => []
  | call :: calls => (call, session.outcome call) :: (session.after call).transcript calls

def log (session : Session) (calls : List Call) : List Event :=
  (session.transcript calls).flatMap fun made => made.2.log

theorem afterAll_cons (session : Session) (call : Call) (calls : List Call) :
    session.afterAll (call :: calls) = (session.after call).afterAll calls := rfl

end Session

end LispCalc
