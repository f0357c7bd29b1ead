namespace LispCalc

inductive Operator where
  | add
  | sub
  | mul
  | div
  | mod
  | bitAnd
  | bitOr
  | bitXor
  | bitClear
  | shiftRight
  | shiftLeft
  | equal
  | and
  | or
deriving DecidableEq, Repr

namespace Operator

def all : List Operator :=
  [.add, .sub, .mul, .div, .mod, .bitAnd, .bitOr, .bitXor, .bitClear, .shiftRight, .shiftLeft,
    .equal, .and, .or]

def name : Operator → String
  | .add => "+"
  | .sub => "-"
  | .mul => "*"
  | .div => "/"
  | .mod => "mod"
  | .bitAnd => "&"
  | .bitOr => "|"
  | .bitXor => "^"
  | .bitClear => "&^"
  | .shiftRight => ">>"
  | .shiftLeft => "<<"
  | .equal => "="
  | .and => "and"
  | .or => "or"

def ofName? (name : String) : Option Operator :=
  all.find? (·.name = name)

@[simp] theorem ofName?_name (op : Operator) : ofName? op.name = some op := by
  cases op <;> decide

theorem ofName?_eq_some_iff {name : String} {op : Operator} :
    ofName? name = some op ↔ op.name = name := by
  constructor
  · intro h
    have hn := List.find?_some h
    simpa only [decide_eq_true_eq] using hn
  · rintro rfl
    exact ofName?_name op

end Operator

end LispCalc
