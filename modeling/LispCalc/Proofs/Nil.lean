import LispCalc.Proofs.Events
import LispCalc.Proofs.Operator
import LispCalc.Proofs.Policies
import LispCalc.Proofs.Session
import LispCalc.Proofs.Source.Printing

namespace LispCalc

open LispCalc.Tree

variable {α β : Type}

/-- Neither nil nor a function of the host, which could give nil. -/
def Value.Sound (v : Value) : Prop :=
  v ≠ .nil ∧ v.HostFree

theorem Operator.sound_of_apply {op : Operator} {args : List Value} {r : Value}
    (h : op.apply args = .ok r) : r.Sound := by
  refine ⟨?_, hostFree_of_apply h⟩
  rcases apply_ok h with ⟨x, rfl⟩ | ⟨b, rfl⟩ <;> exact Value.noConfusion

theorem Value.IsLiteral.sound {v : Value} (h : v.IsLiteral) : v.Sound := by
  refine ⟨?_, h.hostFree⟩
  rintro rfl
  exact h

theorem not_warned_before {o : Outcome α} {o' : Outcome β} (hp : o.log <+: o'.log)
    (hw : ¬ o'.Warned) : ¬ o.Warned :=
  fun h => hw (h.of_prefix hp)

namespace Outcome

/-- Unless it has warned, all names are bound to sound values behind it, and its value satisfies
`p`. -/
def Clean (p : α → Prop) (o : Outcome α) : Prop :=
  ¬ o.Warned → o.environment.Forall Value.Sound ∧ ∀ a, o.result = .ok a → p a

namespace Clean

variable {p : α → Prop} {q : β → Prop}

theorem ok {a : α} {env : Environment} {log : List Event} (ha : p a)
    (h : env.Forall Value.Sound) : Clean p ⟨.ok a, env, log⟩ := by
  intro _
  refine ⟨h, ?_⟩
  rintro b hb
  cases hb
  exact ha

theorem error {e : EvalError} {env : Environment} {log : List Event} (h : env.Forall Value.Sound) :
    Clean p ⟨.error e, env, log⟩ :=
  fun _ => ⟨h, fun _ ha => nomatch ha⟩

theorem of_warned {o : Outcome α} {event : Event} (he : event ∈ o.log)
    (hw : event.isWarning) : Clean p o :=
  fun h => (h ⟨event, he, hw⟩).elim

theorem logged {o : Outcome α} (h : o.Clean p) (events : List Event) :
    (o.logged events).Clean p := by
  intro hw
  apply h
  rintro ⟨event, he, hi⟩
  exact hw ⟨event, List.mem_append_right events he, hi⟩

theorem andThen {o : Outcome α} {next : α → Evaluation β} (h : o.Clean p)
    (hn : ∀ a env, p a → env.Forall Value.Sound → (next a env).Clean q) :
    (o.andThen next).Clean q := by
  intro hw
  obtain ⟨he, ha⟩ := h (not_warned_before (o.log_prefix_andThen next) hw)
  cases ho : o.result with
  | error e =>
    rw [andThen_of_error ho] at hw ⊢
    exact error he hw
  | ok a =>
    rw [andThen_of_ok ho] at hw ⊢
    exact (hn a o.environment (ha a ho) he).logged o.log hw

theorem asOperand {o : Outcome Value} {p : Value → Prop} (h : o.Clean p) (policy : Policy)
    (role : Role) : (o.asOperand policy role).Clean p := by
  cases ho : o.result with
  | ok v =>
    rw [asOperand_of_ok ho]
    exact h
  | error e =>
    rw [asOperand_of_error ho]
    split
    · exact of_warned (List.mem_append_right _ (List.mem_singleton_self _)) rfl
    · exact h

theorem bound {o : Outcome Value} (h : o.Clean Value.Sound) (policy : Policy) (name : String) :
    (o.bound policy name).Clean Value.Sound := by
  have hp := o.log_prefix_bound policy name
  cases ho : o.result with
  | ok v =>
    intro hw
    obtain ⟨he, hv⟩ := h (not_warned_before hp hw)
    rw [bound_of_ok ho] at hw ⊢
    exact ok (hv v ho) (he.define name (hv v ho)) hw
  | error e =>
    rw [bound_of_error ho]
    split
    · exact of_warned (List.mem_append_right _ (List.mem_singleton_self _)) rfl
    · exact h

theorem asForm {o : Outcome Value} {p : Value → Prop} (h : o.Clean p) (index : Nat) :
    (o.asForm index).Clean p := by
  have hp := o.log_prefix_asForm index
  cases ho : o.result with
  | ok v =>
    rw [asForm_of_ok ho]
    exact h
  | error e =>
    intro hw
    obtain ⟨he, -⟩ := h (not_warned_before hp hw)
    rw [asForm_of_error ho] at hw ⊢
    exact error he hw

theorem callOn [Host] {args : Evaluation (List Value)} {callee : Value} {env : Environment}
    (hs : callee.Sound) (he : env.Forall Value.Sound) (h : (args env).Clean fun _ => True) :
    (Evaluation.callOn args callee env).Clean Value.Sound := by
  cases hc : callee.asBuiltin with
  | error e =>
    rw [Evaluation.callOn_of_error hc]
    exact error he
  | ok b =>
    rw [Evaluation.callOn_of_ok hc]
    obtain ⟨op, ho⟩ := hs.2.exists_call_eq hc
    apply h.andThen
    intro values env _ he _
    rw [ho values]
    exact ⟨he, fun r hr => Operator.sound_of_apply hr⟩

end Clean

end Outcome

namespace Expr

open Evaluation

variable [Host]

mutual

theorem eval_clean (options : Options) (e : Expr) (budget : Nat) {env : Environment}
    (h : ∀ value ∈ e.atoms, value.Sound) (he : env.Forall Value.Sound) :
    (e.eval options budget env).Clean Value.Sound := by
  match budget with
  | 0 =>
    rw [eval_zero]
    exact .error he
  | budget + 1 =>
    cases e with
    | atom value =>
      rw [eval_atom]
      exact .ok (h value (List.mem_singleton_self _)) he
    | symbol name =>
      rw [eval_symbol]
      exact fun _ => ⟨he, fun _ hl => he.lookup hl⟩
    | sequence head args =>
      obtain ⟨hh, ha⟩ := List.forall_mem_append.mp h
      rw [eval_sequence]
      apply Outcome.Clean.logged
      apply (eval_clean options head budget hh he).andThen
      intro callee env hs he
      exact .callOn hs he (evalArgs_clean options args budget ha he)
    | definition name value =>
      rw [eval_definition]
      exact ((eval_clean options value budget h he).bound options.policy name).logged _
    | conditional condition thenBranch elseBranch =>
      obtain ⟨hc, hb⟩ := List.forall_mem_append.mp h
      obtain ⟨ht, hf⟩ := List.forall_mem_append.mp hb
      rw [eval_conditional]
      apply Outcome.Clean.logged
      apply ((eval_clean options condition budget hc he).asOperand options.policy _).andThen
      intro value env _ he
      rw [choose]
      split
      · exact eval_clean options thenBranch budget ht he
      · exact eval_clean options elseBranch budget hf he
termination_by structural e

theorem evalArgs_clean (options : Options) (args : List Expr) (budget : Nat)
    {env : Environment} (h : ∀ value ∈ atomsAll args, value.Sound)
    (he : env.Forall Value.Sound) : (evalArgs options budget args env).Clean fun _ => True := by
  match args with
  | [] =>
    rw [evalArgs_nil]
    exact .ok trivial he
  | arg :: args =>
    obtain ⟨ha, hs⟩ := List.forall_mem_append.mp h
    rw [evalArgs_cons]
    apply ((eval_clean options arg budget ha he).asOperand options.policy _).andThen
    intro value env _ he
    rw [map_apply]
    apply (evalArgs_clean options args budget hs he).andThen
    intro values env _ he
    exact .ok trivial he
termination_by structural args

end

end Expr

/-- The values that a call brings into the session. -/
def Call.atoms : Call → List Value
  | .interpret program => Expr.atomsAll program
  | .eval e => e.atoms
  | .define _ value => [value]

namespace Session

section

variable [Host]

end

@[reducible] def nilHost : Host where
  call _ _ := .ok .nil

section

attribute [local instance] Host.none

end

attribute [local instance] nilHost

end Session

end LispCalc
