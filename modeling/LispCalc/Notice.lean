namespace LispCalc

inductive Level where
  | debug
  | warn
deriving DecidableEq, Repr

def Level.name : Level → String
  | .debug => "debug"
  | .warn => "warn"

structure Notice where
  level : Level
  message : String
  fields : List (String × String) := []
deriving DecidableEq, Repr

end LispCalc
