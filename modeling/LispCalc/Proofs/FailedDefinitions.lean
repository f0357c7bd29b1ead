import LispCalc.Proofs.Names

namespace LispCalc

variable {α : Type}

theorem Outcome.Records.completed {names : List String} {o : Outcome α}
    (h : o.Records .strict names) {w : String × Value} (hw : w ∈ o.writes) :
    .defined w.1 w.2 ∈ o.log ∧ w.1 ∈ names := by
  obtain ⟨event, he, hw⟩ := List.mem_filterMap.mp hw
  have hp := h event he
  refine ⟨?_, hp.mem_of_write hw⟩
  cases hp with
  | defined hn value =>
    cases hw
    exact he
  | nilBound hs | nilSubstituted hs => cases hs
  | visited | formStarted | formFailed | operatorShadowed => cases hw

namespace Expr

section

variable [Host]

theorem eval_definition_of_error {maxDepth budget : Nat} {name : String} {value : Expr}
    {env : Environment} {e : EvalError}
    (h : ((definition name value).eval ⟨.strict, maxDepth⟩ (budget + 1) env).result = .error e) :
    (definition name value).eval ⟨.strict, maxDepth⟩ (budget + 1) env =
      (value.eval ⟨.strict, maxDepth⟩ budget env).logged [.visited .definition] := by
  rw [eval_definition] at h ⊢
  cases ho : (value.eval ⟨.strict, maxDepth⟩ budget env).result with
  | ok v =>
    rw [Outcome.bound_of_ok ho] at h
    cases h
  | error e' =>
    rw [Outcome.bound_of_error ho]
    rfl

theorem environment_of_error {maxDepth budget : Nat} {name : String} {value : Expr}
    {env : Environment} {e : EvalError}
    (h : ((definition name value).eval ⟨.strict, maxDepth⟩ budget env).result = .error e) :
    ((definition name value).eval ⟨.strict, maxDepth⟩ budget env).environment =
      (value.eval ⟨.strict, maxDepth⟩ (budget - 1) env).environment := by
  cases budget with
  | zero => rw [eval_zero, eval_zero]
  | succ budget =>
    rw [eval_definition_of_error h]
    rfl

theorem records_of_error {maxDepth budget : Nat} {name : String} {value : Expr}
    {env : Environment} {e : EvalError}
    (h : ((definition name value).eval ⟨.strict, maxDepth⟩ budget env).result = .error e) :
    ((definition name value).eval ⟨.strict, maxDepth⟩ budget env).Records .strict
      value.targets := by
  cases budget with
  | zero =>
    rw [eval_zero]
    exact List.forall_mem_nil _
  | succ budget =>
    rw [eval_definition_of_error h]
    exact (value.eval_records _ budget env (List.Subset.refl _)).logged (.visited _)

/-- A definition that fails under the strict policy leaves the environment that its value leaves:
the one from before with the writes of the definitions inside the value that completed. If there
are none the environment is unchanged, and a name that none of them binds keeps its binding, or
stays unbound. -/
theorem strict_failed_definition_writes_nothing {maxDepth budget : Nat} {name : String}
    {value : Expr} {env : Environment} {e : EvalError}
    (h : ((definition name value).eval ⟨.strict, maxDepth⟩ budget env).result = .error e) :
    let o := (definition name value).eval ⟨.strict, maxDepth⟩ budget env
    o.environment = (value.eval ⟨.strict, maxDepth⟩ (budget - 1) env).environment ∧
      o.environment = env.write o.writes ∧
      (∀ w ∈ o.writes, .defined w.1 w.2 ∈ o.log ∧ w.1 ∈ value.targets) ∧
      ((∀ name value, .defined name value ∉ o.log) → o.environment = env) ∧
      ∀ key, key ∉ value.targets → o.environment.get? key = env.get? key := by
  intro o
  have hr : o.Records .strict value.targets := records_of_error h
  have he : o.environment = env.write o.writes := eval_replays _ _ budget env
  refine ⟨environment_of_error h, he, fun w hw => hr.completed hw, ?_, ?_⟩
  · intro hd
    have hw : o.writes = [] :=
      List.eq_nil_iff_forall_not_mem.mpr fun w hw => hd w.1 w.2 (hr.completed hw).1
    rw [he, hw]
    rfl
  · intro key hk
    rw [he]
    exact Environment.get?_write_of_not_mem (fun hm => hk (hr.mem_of_mem_writes hm)) env

end

attribute [local instance] Host.none

theorem strict_failed_definition_writes_nothing_nested :
    let value := sequence (symbol "+") [definition "y" (atom (.bool true)), symbol "z"]
    let o := (definition "x" value).eval ⟨.strict, 9⟩ 9 .initial
    o.result = .error (.unboundSymbol "z") ∧ o.environment = Environment.initial.write o.writes ∧
      o.environment.get? "x" = Environment.initial.get? "x" := by
  intro value o
  have ho : o.result = .error (.unboundSymbol "z") := rfl
  obtain ⟨-, hw, -, -, hx⟩ := strict_failed_definition_writes_nothing ho
  exact ⟨ho, hw, hx "x" (by decide)⟩

/-- A definition fails, and the environment is another one than before: the definition inside its
value had completed. -/
theorem strict_failed_definition_keeps_nested :
    let value := sequence (symbol "+") [definition "y" (atom (.bool true)), symbol "z"]
    let o := (definition "x" value).eval ⟨.strict, 512⟩ 512 .initial
    o.result = .error (.unboundSymbol "z") ∧ o.environment ≠ .initial ∧
      Environment.initial.get? "y" = none ∧ o.environment.get? "y" = some (.bool true) := by
  intro value o
  have hb : Environment.initial.get? "y" = none := rfl
  have ha : o.environment.get? "y" = some (.bool true) := rfl
  refine ⟨rfl, ?_, hb, ha⟩
  intro he
  rw [he, hb] at ha
  cases ha

end Expr

end LispCalc
