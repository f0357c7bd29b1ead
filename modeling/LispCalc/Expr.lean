import LispCalc.Value

namespace LispCalc

inductive Expr where
  | atom (value : Value)
  | symbol (name : String)
  | sequence (head : Expr) (args : List Expr)
  | definition (name : String) (value : Expr)
  | conditional (condition thenBranch elseBranch : Expr)
deriving Repr, Inhabited

namespace Expr

inductive Shape where
  | atom
  | symbol
  | sequence
  | definition
  | conditional
deriving DecidableEq, Repr

def Shape.name : Shape → String
  | .atom => "atom"
  | .symbol => "symbol"
  | .sequence => "sequence"
  | .definition => "definition"
  | .conditional => "conditional"

def shape : Expr → Shape
  | .atom _ => .atom
  | .symbol _ => .symbol
  | .sequence _ _ => .sequence
  | .definition _ _ => .definition
  | .conditional _ _ _ => .conditional

mutual

def text : Expr → String
  | .atom value => value.text
  | .symbol name => name
  | .sequence head args => "(" ++ head.text ++ String.join (argTexts args) ++ ")"
  | .definition name value => "(def " ++ name ++ " " ++ value.text ++ ")"
  | .conditional condition thenBranch elseBranch =>
    "(if " ++ condition.text ++ " " ++ thenBranch.text ++ " " ++ elseBranch.text ++ ")"

def argTexts : List Expr → List String
  | [] => []
  | e :: es => (" " ++ e.text) :: argTexts es

end

mutual

def equals : Expr → Expr → Bool
  | .atom v, .atom w => v.equals w
  | .symbol x, .symbol y => x = y
  | .sequence f as, .sequence g bs => f.equals g && equalsAll as bs
  | .definition x a, .definition y b => x = y && a.equals b
  | .conditional a b c, .conditional a' b' c' => a.equals a' && b.equals b' && c.equals c'
  | _, _ => false

def equalsAll : List Expr → List Expr → Bool
  | [], [] => true
  | a :: as, b :: bs => a.equals b && equalsAll as bs
  | _, _ => false

end

end Expr

end LispCalc
