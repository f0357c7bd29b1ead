import LispCalc.Decimal.Shortest
import LispCalc.Operator

namespace LispCalc

inductive Kind where
  | nil
  | number
  | bool
  | builtin
deriving DecidableEq, Repr

def Kind.name : Kind → String
  | .nil => "nil"
  | .number => "number"
  | .bool => "bool"
  | .builtin => "builtin"

/-- What a built-in calls: an operator, or a function that the host has added, by its number. -/
inductive Callable where
  | operator (op : Operator)
  | host (id : Nat)
deriving DecidableEq, Repr

/-- A host may put any function under any name. -/
structure Builtin where
  name : String
  callable : Callable
deriving DecidableEq, Repr

def Operator.builtin (op : Operator) : Builtin :=
  ⟨op.name, .operator op⟩

inductive Value where
  | nil
  | number (x : Binary64)
  | bool (b : Bool)
  | builtin (b : Builtin)
deriving DecidableEq, Repr

namespace Value

instance : Inhabited Value := ⟨nil⟩

def kind : Value → Kind
  | .nil => .nil
  | .number _ => .number
  | .bool _ => .bool
  | .builtin _ => .builtin

/-- Nil and false count as false, and all else, zero included, as true. -/
def isTruthy : Value → Bool
  | .bool b => b
  | .nil => false
  | .number _ | .builtin _ => true

/-- Values of two kinds are never equal. Numbers are compared numerically, and built-ins by name. -/
def equals : Value → Value → Bool
  | .nil, .nil => true
  | .number x, .number y => x.equals y
  | .bool a, .bool b => a = b
  | .builtin b, .builtin b' => b.name = b'.name
  | _, _ => false

def text : Value → String
  | .nil => "nil"
  | .number x => x.text
  | .bool b => if b then "true" else "false"
  | .builtin b => "<builtin " ++ b.name ++ ">"

end Value

end LispCalc
