import LispCalc.EvalError
import LispCalc.Value

namespace LispCalc

/-- Each name is bound at most once, and the names increase by code point, so equal look-ups mean
equal tables. -/
structure Environment where
  bindings : List (String × Value)
  sorted : bindings.Pairwise (fun a b => a.1 < b.1)

namespace Environment

/-- Inserts a binding at its place, over an earlier one of the same name. -/
def insert (name : String) (value : Value) : List (String × Value) → List (String × Value)
  | [] => [(name, value)]
  | (key, old) :: rest =>
    if name < key then (name, value) :: (key, old) :: rest
    else if name = key then (name, value) :: rest
    else (key, old) :: insert name value rest

theorem mem_insert {name : String} {value : Value} {l : List (String × Value)}
    {b : String × Value} (h : b ∈ insert name value l) : b = (name, value) ∨ b ∈ l := by
  induction l with
  | nil => exact .inl (List.mem_singleton.mp h)
  | cons a l ih =>
    rw [insert] at h
    split at h
    · exact List.mem_cons.mp h
    · split at h
      · exact (List.mem_cons.mp h).imp_right (List.mem_cons_of_mem a)
      · rcases List.mem_cons.mp h with hb | hb
        · exact .inr (hb ▸ List.mem_cons_self)
        · exact (ih hb).imp_right (List.mem_cons_of_mem a)

theorem lt_of_not_lt_of_ne {a b : String} (h : ¬ a < b) (hne : a ≠ b) : b < a :=
  Decidable.byContradiction fun h' =>
    hne (String.le_antisymm (String.not_lt.mp h') (String.not_lt.mp h))

theorem sorted_insert (name : String) (value : Value) {l : List (String × Value)}
    (h : l.Pairwise (fun a b => a.1 < b.1)) :
    (insert name value l).Pairwise (fun a b => a.1 < b.1) := by
  induction l with
  | nil => exact List.pairwise_singleton _ _
  | cons a l ih =>
    obtain ⟨ha, hl⟩ := List.pairwise_cons.mp h
    rw [insert]
    split
    · rename_i hlt
      refine List.pairwise_cons.mpr ⟨fun b hb => ?_, h⟩
      rcases List.mem_cons.mp hb with rfl | hb
      · exact hlt
      · exact String.lt_trans hlt (ha b hb)
    · rename_i hlt
      split
      · rename_i heq
        exact List.pairwise_cons.mpr ⟨fun b hb => heq ▸ ha b hb, hl⟩
      · rename_i hne
        refine List.pairwise_cons.mpr ⟨fun b hb => ?_, ih hl⟩
        rcases mem_insert hb with rfl | hb
        · exact lt_of_not_lt_of_ne hlt hne
        · exact ha b hb

def empty : Environment :=
  ⟨[], .nil⟩

def define (env : Environment) (name : String) (value : Value) : Environment :=
  ⟨insert name value env.bindings, sorted_insert name value env.sorted⟩

def initial : Environment :=
  Operator.all.foldl (fun env op => env.define op.name (.builtin op.builtin)) empty

instance : Inhabited Environment := ⟨initial⟩

def get? (env : Environment) (name : String) : Option Value :=
  env.bindings.lookup name

def lookup (env : Environment) (name : String) : Except EvalError Value :=
  match env.get? name with
  | some value => .ok value
  | none => .error (.unboundSymbol name)

def contains (env : Environment) (name : String) : Bool :=
  (env.get? name).isSome

def names (env : Environment) : List String :=
  env.bindings.map Prod.fst

def size (env : Environment) : Nat :=
  env.bindings.length

def isEmpty (env : Environment) : Bool :=
  env.bindings.isEmpty

theorem lookup_insert (name : String) (value : Value) (l : List (String × Value)) (key : String) :
    (insert name value l).lookup key = if key = name then some value else l.lookup key := by
  induction l with
  | nil => grind [insert]
  | cons a l ih => grind [insert]

theorem get?_define (env : Environment) (name : String) (value : Value) (key : String) :
    (env.define name value).get? key = if key = name then some value else env.get? key :=
  lookup_insert name value env.bindings key

end Environment

end LispCalc
