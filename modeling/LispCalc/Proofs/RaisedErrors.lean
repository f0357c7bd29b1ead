import LispCalc.Proofs.Outcome

namespace LispCalc

variable {α β : Type}

def errors : Except EvalError α → List EvalError
  | .error e => [e]
  | .ok _ => []

def Event.substituted? : Event → Option EvalError
  | .nilSubstituted _ e => some e
  | _ => none

namespace Outcome

/-- The errors for which the log says that nil was put, in order. -/
def substituted (o : Outcome α) : List EvalError :=
  o.log.filterMap Event.substituted?

def raisedThen (o : Outcome α) (next : α → Environment → List EvalError) : List EvalError :=
  match o.result with
  | .error _ => []
  | .ok a => next a o.environment

theorem raisedThen_nil (o : Outcome α) : o.raisedThen (fun _ _ => []) = [] := by
  cases h : o.result <;> simp only [raisedThen, h]

end Outcome

namespace Expr

variable [Host]

mutual

/-- The errors that an evaluation raises, in order. Where nothing may be evaluated any more, the
depth limit is raised; a symbol raises the error of its look-up, and a sequence raises an error
when its head is no built-in or the application fails. Definitions and conditionals raise nothing
of their own. -/
def raised (options : Options) (budget : Nat) (e : Expr) (env : Environment) :
    List EvalError :=
  match budget, e with
  | 0, _ => [.recursionLimit options.maxDepth]
  | _ + 1, .atom _ => []
  | _ + 1, .symbol name => errors (env.lookup name)
  | budget + 1, .sequence head args =>
    head.raised options budget env ++
      (head.eval options budget env).raisedThen fun callee env =>
        match callee.asBuiltin with
        | .error e => [e]
        | .ok b =>
          argsRaised options budget args env ++
            (evalArgs options budget args env).raisedThen fun values _ => errors (b.call values)
  | budget + 1, .definition _ value => value.raised options budget env
  | budget + 1, .conditional condition thenBranch elseBranch =>
    condition.raised options budget env ++
      (Evaluation.operand options.policy .condition
        (condition.eval options budget) env).raisedThen fun value env =>
          if value.isTruthy then thenBranch.raised options budget env
          else elseBranch.raised options budget env
termination_by structural e

def argsRaised (options : Options) (budget : Nat) (args : List Expr) (env : Environment) :
    List EvalError :=
  match args with
  | [] => []
  | arg :: args =>
    arg.raised options budget env ++
      (Evaluation.operand options.policy .argument (arg.eval options budget) env).raisedThen
        fun _ env => argsRaised options budget args env
termination_by structural args

end

end Expr

namespace Outcome

/-- The outcome accounts for the raised errors: the log substitutes some of them, in order, and
the result is the one that is left, if any. Only a lenient evaluation substitutes, and never for
the depth limit. -/
structure Accounts (policy : Policy) (raised : List EvalError) (o : Outcome α) : Prop where
  balance : raised = o.substituted ++ errors o.result
  substituted : ∀ e ∈ o.substituted, policy.swallowsErrors ∧ e.isRecursionLimit = false

namespace Accounts

variable {policy : Policy} {raised : List EvalError}

theorem of_silent {o : Outcome α} (h : o.substituted = []) :
    Accounts policy (errors o.result) o := by
  constructor
  · rw [h, List.nil_append]
  · intro e he
    rw [h] at he
    cases he

theorem substituted_logged (events : List Event) (o : Outcome α) :
    (o.logged events).substituted = events.filterMap Event.substituted? ++ o.substituted :=
  List.filterMap_append

theorem logged {o : Outcome α} {event : Event} (h : Accounts policy raised o)
    (he : event.substituted? = none) : Accounts policy raised (o.logged [event]) := by
  have hs : (o.logged [event]).substituted = o.substituted := by
    rw [substituted_logged, List.filterMap_cons_none he]
    rfl
  constructor
  · rw [hs]
    exact h.balance
  · rw [hs]
    exact h.substituted

theorem noted {o o' : Outcome α} {events : List Event} (h : Accounts policy raised o)
    (hl : o'.log = o.log ++ events) (he : events.filterMap Event.substituted? = [])
    (hr : errors o'.result = errors o.result) : Accounts policy raised o' := by
  have hs : o'.substituted = o.substituted := by
    rw [Outcome.substituted, hl, List.filterMap_append, he]
    exact List.append_nil _
  constructor
  · rw [hs, hr]
    exact h.balance
  · rw [hs]
    exact h.substituted

theorem andThen {o : Outcome α} {next : α → Evaluation β}
    {rest : α → Environment → List EvalError} (h : Accounts policy raised o)
    (hn : ∀ a env, Accounts policy (rest a env) (next a env)) :
    Accounts policy (raised ++ o.raisedThen rest) (o.andThen next) := by
  have hb := h.balance
  cases ho : o.result with
  | error e =>
    rw [andThen_of_error ho, raisedThen, ho, List.append_nil]
    rw [ho] at hb
    exact ⟨hb, h.substituted⟩
  | ok a =>
    have hr := hn a o.environment
    rw [ho] at hb
    have hs : raised = o.substituted := hb.trans (List.append_nil _)
    rw [andThen_of_ok ho, raisedThen, ho]
    constructor
    · rw [substituted_logged, List.append_assoc, hs]
      exact congrArg _ hr.balance
    · intro e he
      rw [substituted_logged] at he
      rcases List.mem_append.mp he with he | he
      · exact h.substituted e he
      · exact hr.substituted e he

theorem andThenSilent {o : Outcome α} {next : α → Evaluation β} (h : Accounts policy raised o)
    (hn : ∀ a env, Accounts policy [] (next a env)) : Accounts policy raised (o.andThen next) := by
  have hc : Accounts policy (raised ++ o.raisedThen fun _ _ => []) (o.andThen next) := h.andThen hn
  rwa [raisedThen_nil, List.append_nil] at hc

theorem andThenResult {o : Outcome α} {f : α → Except EvalError β} (h : Accounts policy raised o) :
    Accounts policy (raised ++ o.raisedThen fun a _ => errors (f a))
      (o.andThen fun a => Evaluation.ofResult (f a)) := by
  apply h.andThen
  intro a env
  exact of_silent (o := ⟨f a, env, []⟩) rfl

theorem asOperand {o : Outcome Value} (h : Accounts policy raised o) (role : Role) :
    Accounts policy raised (o.asOperand policy role) := by
  cases ho : o.result with
  | ok v =>
    rw [asOperand_of_ok ho]
    exact h
  | error e =>
    rw [asOperand_of_error ho]
    split
    · rename_i hp
      obtain ⟨hp, hl⟩ := Bool.and_eq_true_iff.mp hp
      have hb := h.balance
      rw [ho] at hb
      constructor
      · rw [Outcome.substituted, List.filterMap_append]
        exact hb.trans (List.append_nil _).symm
      · intro e' he
        rw [Outcome.substituted, List.filterMap_append] at he
        rcases List.mem_append.mp he with he | he
        · exact h.substituted e' he
        · rw [List.mem_singleton.mp he]
          exact ⟨hp, by simpa using hl⟩
    · exact h

theorem bound {o : Outcome Value} (h : Accounts policy raised o) (name : String) :
    Accounts policy raised (o.bound policy name) := by
  cases ho : o.result with
  | ok v =>
    rw [bound_of_ok ho]
    apply h.noted rfl
    · rw [List.filterMap_append, filterMap_shadowing rfl]
      rfl
    · rw [ho]
  | error e =>
    rw [bound_of_error ho]
    split
    · apply h.noted rfl rfl
      rw [ho]
    · exact h

theorem callOn [Host] {args : Evaluation (List Value)} {argsRaised : Environment → List EvalError}
    (h : ∀ env, Accounts policy (argsRaised env) (args env)) (callee : Value)
    (env : Environment) :
    Accounts policy
      (match callee.asBuiltin with
        | .error e => [e]
        | .ok b => argsRaised env ++ (args env).raisedThen fun values _ => errors (b.call values))
      (Evaluation.callOn args callee env) := by
  cases hc : callee.asBuiltin with
  | error e =>
    rw [Evaluation.callOn_of_error hc]
    exact of_silent (o := ⟨.error e, env, []⟩) rfl
  | ok b =>
    rw [Evaluation.callOn_of_ok hc]
    exact (h env).andThenResult

end Accounts

end Outcome

namespace Expr

open Evaluation

variable [Host]

mutual

theorem eval_accounts (options : Options) (e : Expr) (budget : Nat) (env : Environment) :
    (e.eval options budget env).Accounts options.policy (e.raised options budget env) := by
  match budget with
  | 0 =>
    rw [eval_zero]
    have hr : e.raised options 0 env = [.recursionLimit options.maxDepth] := by
      cases e <;> rfl
    rw [hr]
    exact Outcome.Accounts.of_silent
      (o := ⟨.error (.recursionLimit options.maxDepth), env, []⟩) rfl
  | budget + 1 =>
    cases e with
    | atom value =>
      rw [eval_atom]
      exact Outcome.Accounts.of_silent (o := ⟨.ok value, env, [.visited .atom]⟩) rfl
    | symbol name =>
      rw [eval_symbol]
      exact Outcome.Accounts.of_silent (o := ⟨env.lookup name, env, [.visited .symbol]⟩) rfl
    | sequence head args =>
      rw [eval_sequence, raised]
      apply Outcome.Accounts.logged _ rfl
      apply (eval_accounts options head budget env).andThen
      intro callee env
      exact Outcome.Accounts.callOn (evalArgs_accounts options args budget) callee env
    | definition name value =>
      rw [eval_definition, raised]
      exact ((eval_accounts options value budget env).bound name).logged rfl
    | conditional condition thenBranch elseBranch =>
      rw [eval_conditional, raised, operand_apply]
      apply Outcome.Accounts.logged _ rfl
      apply ((eval_accounts options condition budget env).asOperand .condition).andThen
      intro value env
      rw [choose]
      split
      · exact eval_accounts options thenBranch budget env
      · exact eval_accounts options elseBranch budget env
termination_by structural e

theorem evalArgs_accounts (options : Options) (args : List Expr) (budget : Nat)
    (env : Environment) :
    (evalArgs options budget args env).Accounts options.policy
      (argsRaised options budget args env) := by
  match args with
  | [] =>
    rw [evalArgs_nil]
    exact Outcome.Accounts.of_silent (o := ⟨.ok [], env, []⟩) rfl
  | arg :: args =>
    rw [evalArgs_cons, argsRaised, operand_apply]
    apply ((eval_accounts options arg budget env).asOperand .argument).andThen
    intro value env
    rw [map_apply]
    apply (evalArgs_accounts options args budget env).andThenSilent
    intro values env
    exact Outcome.Accounts.of_silent (o := ⟨.ok (value :: values), env, []⟩) rfl
termination_by structural args

end

/-- The errors raised in an evaluation are, in order, those for which the log says that nil was
put and then the one that is returned, if any. The depth limit is never among the former, and a
strict evaluation has none of them, so that it raises no error but the one that it returns. -/
theorem raised_eq_substituted_append_returned (options : Options) (budget : Nat) (e : Expr)
    (env : Environment) :
    let o := e.eval options budget env
    let substituted := o.log.filterMap Event.substituted?
    e.raised options budget env = substituted ++ errors o.result ∧
      (∀ cause ∈ substituted, cause.isRecursionLimit = false) ∧
      (options.policy = .strict →
        substituted = [] ∧ e.raised options budget env = errors o.result) := by
  intro o substituted
  have h : o.Accounts options.policy (e.raised options budget env) :=
    e.eval_accounts options budget env
  refine ⟨h.balance, fun cause hc => (h.substituted cause hc).2, ?_⟩
  intro hp
  have hs : substituted = [] := by
    apply List.eq_nil_iff_forall_not_mem.mpr
    intro cause hc
    have hw := (h.substituted cause hc).1
    rw [hp] at hw
    cases hw
  refine ⟨hs, h.balance.trans ?_⟩
  rw [Outcome.substituted]
  exact congrArg (· ++ errors o.result) hs

example :
    let e := sequence (symbol "+") [symbol "x", sequence (symbol "y") []]
    e.raised ⟨.lenient, 9⟩ 9 .initial =
      [.unboundSymbol "x", .unboundSymbol "y", .typeMismatch "+" "number" "nil"] := rfl

end Expr

end LispCalc
