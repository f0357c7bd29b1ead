import LispCalc.Proofs.Outcome

namespace LispCalc

variable {α β : Type}

def Event.isWarning (event : Event) : Bool :=
  event.notice?.any (·.level = .warn)

def Outcome.Warned (o : Outcome α) : Prop :=
  ∃ event ∈ o.log, event.isWarning

theorem Outcome.Warned.of_prefix {o : Outcome α} {o' : Outcome β} (h : o.Warned)
    (hp : o.log <+: o'.log) : o'.Warned := by
  obtain ⟨event, he, hw⟩ := h
  exact ⟨event, hp.subset he, hw⟩

/-- The strict run has failed, and the lenient one has warned. -/
structure Parted (strict lenient : Outcome α) : Prop where
  fails : ∃ e, strict.result = .error e
  warned : lenient.Warned

inductive Lockstep (strict lenient : Outcome α) : Prop
  | same (h : strict = lenient)
  | parted (h : Parted strict lenient) (hp : strict.log <+: lenient.log)

theorem lenient_eq_of_strict_ok {strict lenient : Outcome α}
    (h : strict = lenient ∨ Parted strict lenient) {a : α} (ha : strict.result = .ok a) :
    lenient = strict := by
  rcases h with h | h
  · exact h.symm
  · obtain ⟨e, he⟩ := h.fails
    rw [ha] at he
    cases he

theorem strict_eq_of_not_warned {strict lenient : Outcome α}
    (h : strict = lenient ∨ Parted strict lenient) (hw : ¬ lenient.Warned) : strict = lenient := by
  rcases h with h | h
  · exact h
  · exact (hw h.warned).elim

theorem Parted.andThen {strict lenient : Outcome α} (h : Parted strict lenient)
    (next next' : α → Evaluation β) : Parted (strict.andThen next) (lenient.andThen next') := by
  obtain ⟨e, he⟩ := h.fails
  constructor
  · rw [Outcome.andThen_of_error he]
    exact ⟨e, rfl⟩
  · exact h.warned.of_prefix (lenient.log_prefix_andThen next')

theorem Parted.logged {strict lenient : Outcome α} (h : Parted strict lenient)
    (events : List Event) : Parted (strict.logged events) (lenient.logged events) := by
  refine ⟨h.fails, ?_⟩
  obtain ⟨event, he, hw⟩ := h.warned
  exact ⟨event, List.mem_append_right events he, hw⟩

theorem Parted.asForm {strict lenient : Outcome Value} (h : Parted strict lenient)
    (index : Nat) : Parted (strict.asForm index) (lenient.asForm index) := by
  obtain ⟨e, he⟩ := h.fails
  constructor
  · rw [Outcome.asForm_of_error he]
    exact ⟨e, rfl⟩
  · exact h.warned.of_prefix (lenient.log_prefix_asForm index)

namespace Lockstep

variable {strict lenient : Outcome Value}

theorem logged {strict lenient : Outcome α} (h : Lockstep strict lenient)
    (events : List Event) : Lockstep (strict.logged events) (lenient.logged events) := by
  cases h with
  | same h => exact .same (congrArg _ h)
  | parted h hp => exact .parted (h.logged events) ((List.prefix_append_right_inj events).mpr hp)

theorem andThen {strict lenient : Outcome α} {next next' : α → Evaluation β}
    (h : Lockstep strict lenient) (hn : ∀ a env, Lockstep (next a env) (next' a env)) :
    Lockstep (strict.andThen next) (lenient.andThen next') := by
  cases h with
  | same h =>
    subst h
    cases ho : strict.result with
    | error e =>
      rw [Outcome.andThen_of_error ho, Outcome.andThen_of_error ho]
      exact .same rfl
    | ok a =>
      rw [Outcome.andThen_of_ok ho, Outcome.andThen_of_ok ho]
      exact (hn a strict.environment).logged strict.log
  | parted h hp =>
    refine .parted (h.andThen next next') ?_
    obtain ⟨e, he⟩ := h.fails
    rw [Outcome.andThen_of_error he]
    exact hp.trans (lenient.log_prefix_andThen next')

theorem asOperand (h : Lockstep strict lenient) (role : Role) :
    Lockstep (strict.asOperand .strict role) (lenient.asOperand .lenient role) := by
  rw [Outcome.asOperand_strict]
  cases h with
  | same h =>
    subst h
    cases ho : strict.result with
    | ok v => exact .same (Outcome.asOperand_of_ok ho _ _).symm
    | error e =>
      rw [Outcome.asOperand_of_error ho]
      split
      · have hm : Event.nilSubstituted role e ∈ strict.log ++ [.nilSubstituted role e] :=
          List.mem_append_right _ (List.mem_singleton_self _)
        exact .parted ⟨⟨e, ho⟩, ⟨_, hm, rfl⟩⟩ (List.prefix_append _ _)
      · exact .same rfl
  | parted h hp =>
    have hl := lenient.log_prefix_asOperand .lenient role
    exact .parted ⟨h.fails, h.warned.of_prefix hl⟩ (hp.trans hl)

theorem bound (h : Lockstep strict lenient) (name : String) :
    Lockstep (strict.bound .strict name) (lenient.bound .lenient name) := by
  cases h with
  | same h =>
    subst h
    cases ho : strict.result with
    | ok v =>
      rw [Outcome.bound_of_ok ho, Outcome.bound_of_ok ho]
      exact .same rfl
    | error e =>
      rw [Outcome.bound_of_error ho, Outcome.bound_of_error ho]
      have hm : Event.nilBound name e ∈ strict.log ++ [.nilBound name e] :=
        List.mem_append_right _ (List.mem_singleton_self _)
      exact .parted ⟨⟨e, ho⟩, ⟨_, hm, rfl⟩⟩ (List.prefix_append _ _)
  | parted h hp =>
    obtain ⟨e, he⟩ := h.fails
    have hl := lenient.log_prefix_bound .lenient name
    rw [Outcome.bound_of_error he]
    exact .parted ⟨⟨e, he⟩, h.warned.of_prefix hl⟩ (hp.trans hl)

theorem callOn [Host] {args args' : Evaluation (List Value)} {callee : Value} {env : Environment}
    (h : Lockstep (args env) (args' env)) :
    Lockstep (Evaluation.callOn args callee env) (Evaluation.callOn args' callee env) := by
  cases hc : callee.asBuiltin with
  | error e =>
    rw [Evaluation.callOn_of_error hc, Evaluation.callOn_of_error hc]
    exact .same rfl
  | ok b =>
    rw [Evaluation.callOn_of_ok hc, Evaluation.callOn_of_ok hc]
    exact h.andThen fun _ _ => .same rfl

theorem log_prefix {strict lenient : Outcome α} (h : Lockstep strict lenient) :
    strict.log <+: lenient.log := by
  cases h with
  | same h =>
    subst h
    exact List.prefix_rfl
  | parted h hp => exact hp

theorem same_or_parted {strict lenient : Outcome α} (h : Lockstep strict lenient) :
    strict = lenient ∨ Parted strict lenient := by
  cases h with
  | same h => exact .inl h
  | parted h hp => exact .inr h

end Lockstep

variable [Host]

namespace Expr

open Evaluation

mutual

theorem eval_lockstep (maxDepth : Nat) (e : Expr) (budget : Nat) (env : Environment) :
    Lockstep (e.eval ⟨.strict, maxDepth⟩ budget env)
      (e.eval ⟨.lenient, maxDepth⟩ budget env) := by
  match budget with
  | 0 =>
    rw [eval_zero, eval_zero]
    exact .same rfl
  | budget + 1 =>
    cases e with
    | atom value =>
      rw [eval_atom, eval_atom]
      exact .same rfl
    | symbol name =>
      rw [eval_symbol, eval_symbol]
      exact .same rfl
    | sequence head args =>
      rw [eval_sequence, eval_sequence]
      apply Lockstep.logged
      apply (eval_lockstep maxDepth head budget env).andThen
      intro callee env
      exact (evalArgs_lockstep maxDepth args budget env).callOn
    | definition name value =>
      rw [eval_definition, eval_definition]
      exact ((eval_lockstep maxDepth value budget env).bound name).logged _
    | conditional condition thenBranch elseBranch =>
      rw [eval_conditional, eval_conditional]
      apply Lockstep.logged
      apply ((eval_lockstep maxDepth condition budget env).asOperand .condition).andThen
      intro value env
      rw [choose, choose]
      split
      · exact eval_lockstep maxDepth thenBranch budget env
      · exact eval_lockstep maxDepth elseBranch budget env
termination_by structural e

theorem evalArgs_lockstep (maxDepth : Nat) (args : List Expr) (budget : Nat)
    (env : Environment) :
    Lockstep (evalArgs ⟨.strict, maxDepth⟩ budget args env)
      (evalArgs ⟨.lenient, maxDepth⟩ budget args env) := by
  match args with
  | [] =>
    rw [evalArgs_nil, evalArgs_nil]
    exact .same rfl
  | arg :: args =>
    rw [evalArgs_cons, evalArgs_cons]
    apply ((eval_lockstep maxDepth arg budget env).asOperand .argument).andThen
    intro value env
    rw [map_apply, map_apply]
    exact (evalArgs_lockstep maxDepth args budget env).andThen fun _ _ => .same rfl
termination_by structural args

end

end Expr

namespace Program

/-- The note on a failed form may come where the lenient run has warned already, so the logs of
whole programs need not be prefixes. -/
theorem evalFrom_same_or_parted (maxDepth : Nat) (index : Nat) (last : Value)
    (forms : List Expr) (env : Environment) :
    evalFrom ⟨.strict, maxDepth⟩ index last forms env =
        evalFrom ⟨.lenient, maxDepth⟩ index last forms env ∨
      Parted (evalFrom ⟨.strict, maxDepth⟩ index last forms env)
        (evalFrom ⟨.lenient, maxDepth⟩ index last forms env) := by
  induction forms generalizing index last env with
  | nil =>
    rw [evalFrom_nil, evalFrom_nil]
    exact .inl rfl
  | cons form forms ih =>
    rw [evalFrom_cons, evalFrom_cons]
    rcases (form.eval_lockstep maxDepth maxDepth env).same_or_parted with h | h
    · rw [h]
      cases hf : ((form.eval ⟨.lenient, maxDepth⟩ maxDepth env).asForm index).result with
      | error e =>
        rw [Outcome.andThen_of_error hf, Outcome.andThen_of_error hf]
        exact .inl rfl
      | ok v =>
        rw [Outcome.andThen_of_ok hf, Outcome.andThen_of_ok hf]
        rcases ih (index + 1) v _ with hs | hp
        · exact .inl (by rw [hs])
        · exact .inr ((hp.logged _).logged _)
    · exact .inr (((h.asForm index).andThen _ _).logged _)

end Program

/-- From the same state and with the same nesting left, a strict run logs a part of what the
lenient one logs; the two runs are equal if the strict one succeeds or the lenient one does not
warn. Runs of programs are equal in the same two cases. -/
theorem strict_eq_lenient_unless_warned (maxDepth : Nat) (env : Environment) :
    (∀ (e : Expr) (budget : Nat),
      let strict := e.eval ⟨.strict, maxDepth⟩ budget env
      let lenient := e.eval ⟨.lenient, maxDepth⟩ budget env
      strict.log <+: lenient.log ∧
        (∀ v, strict.result = .ok v → lenient = strict) ∧
        (¬ lenient.Warned → strict = lenient)) ∧
    ∀ program : List Expr,
      let strict := Program.eval ⟨.strict, maxDepth⟩ program env
      let lenient := Program.eval ⟨.lenient, maxDepth⟩ program env
      (∀ v, strict.result = .ok v → lenient = strict) ∧
        (¬ lenient.Warned → strict = lenient) := by
  constructor
  · intro e budget strict lenient
    have hl : Lockstep strict lenient := e.eval_lockstep maxDepth budget env
    refine ⟨hl.log_prefix, ?_, strict_eq_of_not_warned hl.same_or_parted⟩
    intro v hv
    exact lenient_eq_of_strict_ok hl.same_or_parted hv
  · intro program strict lenient
    have hp : strict = lenient ∨ Parted strict lenient :=
      Program.evalFrom_same_or_parted maxDepth 0 .nil program env
    refine ⟨?_, strict_eq_of_not_warned hp⟩
    intro v hv
    exact lenient_eq_of_strict_ok hp hv

end LispCalc
