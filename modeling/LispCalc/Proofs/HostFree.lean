import LispCalc.Expr.Eval
import LispCalc.Proofs.Operator

namespace LispCalc

namespace Expr

mutual

/-- The values in an expression, in the order of its text. -/
def atoms : Expr → List Value
  | .atom value => [value]
  | .symbol _ => []
  | .sequence head args => head.atoms ++ atomsAll args
  | .definition _ value => value.atoms
  | .conditional condition thenBranch elseBranch =>
    condition.atoms ++ (thenBranch.atoms ++ elseBranch.atoms)

def atomsAll : List Expr → List Value
  | [] => []
  | e :: es => e.atoms ++ atomsAll es

end

end Expr

/-- No function of the host. An operator is none, whatever its name. -/
def Value.HostFree : Value → Prop
  | .builtin b => ∃ op, b.callable = .operator op
  | .nil | .number _ | .bool _ => True

theorem Value.hostFree_nil : Value.nil.HostFree := trivial

namespace Environment

variable {p : Value → Prop} {env : Environment} {name : String} {value : Value}

def Forall (p : Value → Prop) (env : Environment) : Prop :=
  ∀ name value, env.get? name = some value → p value

theorem Forall.define (h : env.Forall p) (name : String) (hv : p value) :
    (env.define name value).Forall p := by
  intro key bound hb
  rw [get?_define] at hb
  split at hb
  · cases hb
    exact hv
  · exact h key bound hb

theorem Forall.lookup (h : env.Forall p) (hl : env.lookup name = .ok value) : p value := by
  rw [Environment.lookup] at hl
  split at hl
  · rename_i v hv
    cases hl
    exact h name value hv
  · cases hl

theorem forall_initial (h : ∀ op : Operator, p (.builtin op.builtin)) : initial.Forall p := by
  have hf (ops : List Operator) {env : Environment} (he : env.Forall p) :
      (ops.foldl (fun env op => env.define op.name (.builtin op.builtin)) env).Forall p := by
    induction ops generalizing env with
    | nil => exact he
    | cons op ops ih => exact ih (he.define op.name (h op))
  apply hf Operator.all
  intro name value hv
  cases hv

def HostFree (env : Environment) : Prop :=
  env.Forall Value.HostFree

theorem initial_hostFree : initial.HostFree :=
  forall_initial fun op => ⟨op, rfl⟩

end Environment

def Expr.HostFree (e : Expr) : Prop :=
  ∀ value ∈ e.atoms, value.HostFree

def Program.HostFree (program : List Expr) : Prop :=
  ∀ value ∈ Expr.atomsAll program, value.HostFree

theorem Operator.hostFree_of_apply {op : Operator} {args : List Value} {r : Value}
    (h : op.apply args = .ok r) : r.HostFree := by
  rcases apply_ok h with ⟨x, rfl⟩ | ⟨b, rfl⟩ <;> trivial

theorem Value.HostFree.exists_call_eq [Host] {callee : Value} {b : Builtin} (h : callee.HostFree)
    (hb : callee.asBuiltin = .ok b) : ∃ op : Operator, ∀ args, b.call args = op.apply args := by
  cases callee with
  | nil | number x | bool c => cases hb
  | builtin b' =>
    cases hb
    obtain ⟨op, ho⟩ := h
    refine ⟨op, fun args => ?_⟩
    rw [Builtin.call, ho]

end LispCalc
