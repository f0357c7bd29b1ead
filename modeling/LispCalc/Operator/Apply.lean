import LispCalc.Binary64.Arithmetic
import LispCalc.EvalError
import LispCalc.Value

namespace LispCalc

namespace Value

def asNumber (op : String) : Value → Except EvalError Binary64
  | .number x => .ok x
  | v => .error (.typeMismatch op Kind.number.name v.kind.name)

def asInteger (op : String) (v : Value) : Except EvalError Int64 :=
  (v.asNumber op).map Binary64.toInt64

def asBuiltin : Value → Except EvalError Builtin
  | .builtin b => .ok b
  | v => .error (.notCallable v.kind.name)

def ofInt64 (n : Int64) : Value :=
  .number (.ofInt n.toInt)

end Value

namespace Operator

/-- The remainder has the sign of the dividend. -/
def remainder (a b : Int64) : Except EvalError Int64 :=
  if b = 0 then .error (.divisionByZero mod.name) else .ok (a % b)

/-- The count of a shift, at most the greatest one of 32 bits. -/
def shiftCount (op : Operator) (count : Int64) : Except EvalError UInt32 :=
  if count < 0 then .error (.invalidShift op.name count.toInt)
  else .ok (.ofNatClamp count.toNatClampNeg)

def checkedShift (shift : Int64 → Int64 → Int64) (a : Int64) (count : UInt32) : Option Int64 :=
  if count < 64 then some (shift a (.ofNat count.toNat)) else none

/-- Shifting right rounds toward minus infinity; past the width only the sign is left. -/
def shiftedRight (a b : Int64) : Except EvalError Int64 := do
  let count ← shiftCount .shiftRight b
  return (checkedShift (· >>> ·) a count).getD (if a < 0 then -1 else 0)

/-- Shifting left drops the bits that leave the width. -/
def shiftedLeft (a b : Int64) : Except EvalError Int64 := do
  let count ← shiftCount .shiftLeft b
  return (checkedShift (· <<< ·) a count).getD 0

def onNumbers (op : Operator) (f : Binary64 → Binary64 → Binary64) (v w : Value) :
    Except EvalError Value := do
  let x ← v.asNumber op.name
  let y ← w.asNumber op.name
  return .number (f x y)

/-- The left operand's kind is checked first, and both kinds before the operation itself. -/
def onIntegers (op : Operator) (f : Int64 → Int64 → Except EvalError Int64) (v w : Value) :
    Except EvalError Value := do
  let a ← v.asInteger op.name
  let b ← w.asInteger op.name
  return .ofInt64 (← f a b)

def applyPair (v w : Value) : Operator → Except EvalError Value
  | .add => onNumbers .add (· + ·) v w
  | .sub => onNumbers .sub (· - ·) v w
  | .mul => onNumbers .mul (· * ·) v w
  | .div => onNumbers .div (· / ·) v w
  | .mod => onIntegers .mod remainder v w
  | .bitAnd => onIntegers .bitAnd (fun a b => .ok (a &&& b)) v w
  | .bitOr => onIntegers .bitOr (fun a b => .ok (a ||| b)) v w
  | .bitXor => onIntegers .bitXor (fun a b => .ok (a ^^^ b)) v w
  | .bitClear => onIntegers .bitClear (fun a b => .ok (a &&& ~~~b)) v w
  | .shiftRight => onIntegers .shiftRight shiftedRight v w
  | .shiftLeft => onIntegers .shiftLeft shiftedLeft v w
  | .equal => .ok (.bool (v.equals w))
  | .and => .ok (.bool (v.isTruthy && w.isTruthy))
  | .or => .ok (.bool (v.isTruthy || w.isTruthy))

def apply (op : Operator) : List Value → Except EvalError Value
  | [v, w] => op.applyPair v w
  | args => .error (.arityMismatch op.name 2 args.length)

end Operator

end LispCalc
