import LispCalc.Environment

namespace LispCalc

namespace Environment

/-- A binding with a larger name before it would break the order, so the first binding found is the
only one. -/
theorem mem_bindings_iff (env : Environment) (name : String) (value : Value) :
    (name, value) ∈ env.bindings ↔ env.get? name = some value := by
  rw [get?, List.lookup_eq_some_iff]
  constructor
  · intro h
    obtain ⟨before, behind, hb⟩ := List.append_of_mem h
    refine ⟨before, behind, hb, fun b hm => ?_⟩
    have hs := env.sorted
    rw [hb] at hs
    have hlt := (List.pairwise_append.mp hs).2.2 b hm _ List.mem_cons_self
    exact bne_iff_ne.mpr (String.ne_of_lt hlt).symm
  · rintro ⟨before, behind, hb, -⟩
    rw [hb]
    exact List.mem_append_right before List.mem_cons_self

theorem nodup_bindings (env : Environment) : env.bindings.Nodup :=
  env.sorted.imp fun hlt he => String.ne_of_lt hlt (congrArg Prod.fst he)

theorem eq_of_get?_eq {env env' : Environment} (h : ∀ name, env.get? name = env'.get? name) :
    env = env' := by
  have hp : env.bindings.Perm env'.bindings := by
    refine (List.perm_ext_iff_of_nodup env.nodup_bindings env'.nodup_bindings).mpr fun b => ?_
    rw [mem_bindings_iff, mem_bindings_iff, h]
  have he : env.bindings = env'.bindings :=
    hp.eq_of_pairwise (fun a b _ _ hab hba => (String.lt_asymm hab hba).elim) env.sorted env'.sorted
  cases env
  cases env'
  congr

end Environment

end LispCalc
