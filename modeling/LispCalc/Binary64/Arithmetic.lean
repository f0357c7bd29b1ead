import LispCalc.Binary64.Rounding

namespace LispCalc

namespace Binary64

/-- An exact sum of zero is negative only when both operands are. -/
def add : Binary64 → Binary64 → Binary64
  | .finite s a, .finite t b =>
    let sum := signed s (unitsOfRank a) + signed t (unitsOfRank b)
    if sum = 0 then .finite (s && t) 0 else ofUnits sum
  | .infinity s, .infinity t => if s = t then .infinity s else .nan
  | .infinity s, .finite _ _ => .infinity s
  | .finite _ _, .infinity t => .infinity t
  | .nan, _ | _, .nan => .nan

def sub (x y : Binary64) : Binary64 :=
  x.add y.neg

def mul : Binary64 → Binary64 → Binary64
  | .finite s a, .finite t b => ofRatio (s != t) (unitsOfRank a * unitsOfRank b) unitsPerOne
  | .infinity s, .infinity t => .infinity (s != t)
  | .infinity s, .finite t b => if b = 0 then .nan else .infinity (s != t)
  | .finite s a, .infinity t => if a = 0 then .nan else .infinity (s != t)
  | .nan, _ | _, .nan => .nan

def div : Binary64 → Binary64 → Binary64
  | .finite s a, .finite t b =>
    if b = 0 then if a = 0 then .nan else .infinity (s != t)
    else ofRatio (s != t) (unitsOfRank a * unitsPerOne) (unitsOfRank b)
  | .infinity _, .infinity _ => .nan
  | .infinity s, .finite t _ => .infinity (s != t)
  | .finite s _, .infinity t => .finite (s != t) 0
  | .nan, _ | _, .nan => .nan

instance : Add Binary64 := ⟨add⟩
instance : Sub Binary64 := ⟨sub⟩
instance : Mul Binary64 := ⟨mul⟩
instance : Div Binary64 := ⟨div⟩
instance : Neg Binary64 := ⟨neg⟩

end Binary64

end LispCalc
