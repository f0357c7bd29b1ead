import LispCalc.Proofs.Outcome

namespace LispCalc

variable {α β : Type}

namespace Expr

mutual

/-- The names that the definitions in an expression bind. -/
def targets : Expr → List String
  | .atom _ | .symbol _ => []
  | .sequence head args => head.targets ++ targetsAll args
  | .definition name value => name :: value.targets
  | .conditional condition thenBranch elseBranch =>
    condition.targets ++ (thenBranch.targets ++ elseBranch.targets)

def targetsAll : List Expr → List String
  | [] => []
  | e :: es => e.targets ++ targetsAll es

end

end Expr

/-- The events of an evaluation whose definitions bind the given names. -/
inductive Event.Possible (policy : Policy) (names : List String) : Event → Prop
  | visited (shape : Expr.Shape) : Possible policy names (.visited shape)
  | formStarted (index : Nat) (form : Expr) : Possible policy names (.formStarted index form)
  | formFailed (index : Nat) (error : EvalError) : Possible policy names (.formFailed index error)
  | operatorShadowed {name : String} (h : name ∈ names) :
    Possible policy names (.operatorShadowed name)
  | defined {name : String} (h : name ∈ names) (value : Value) :
    Possible policy names (.defined name value)
  | nilBound {name : String} (hp : policy.swallowsErrors) (h : name ∈ names) (error : EvalError) :
    Possible policy names (.nilBound name error)
  | nilSubstituted (hp : policy.swallowsErrors) (role : Role) (error : EvalError) :
    Possible policy names (.nilSubstituted role error)

namespace Outcome

def Records (policy : Policy) (names : List String) (o : Outcome α) : Prop :=
  ∀ event ∈ o.log, event.Possible policy names

namespace Records

variable {policy : Policy} {names : List String}

theorem logged {o : Outcome α} {event : Event} (h : o.Records policy names)
    (he : event.Possible policy names) : (o.logged [event]).Records policy names :=
  List.forall_mem_cons.mpr ⟨he, h⟩

theorem noted {o : Outcome α} {o' : Outcome β} {events : List Event} (h : o.Records policy names)
    (hl : o'.log = o.log ++ events) (he : ∀ event ∈ events, event.Possible policy names) :
    o'.Records policy names := by
  rw [Records, hl]
  exact List.forall_mem_append.mpr ⟨h, he⟩

theorem andThen {o : Outcome α} {next : α → Evaluation β} (h : o.Records policy names)
    (hn : ∀ a env, (next a env).Records policy names) : (o.andThen next).Records policy names := by
  cases ho : o.result with
  | error e =>
    rw [andThen_of_error ho]
    exact h
  | ok a =>
    rw [andThen_of_ok ho]
    exact h.noted rfl (hn a o.environment)

theorem asOperand {o : Outcome Value} (h : o.Records policy names) (role : Role) :
    (o.asOperand policy role).Records policy names := by
  cases ho : o.result with
  | ok v =>
    rw [asOperand_of_ok ho]
    exact h
  | error e =>
    rw [asOperand_of_error ho]
    split
    · rename_i hp
      have hs : policy.swallowsErrors := (Bool.and_eq_true_iff.mp hp).1
      exact h.noted rfl (List.forall_mem_singleton.mpr (.nilSubstituted hs role e))
    · exact h

theorem shadowing {name : String} (hn : name ∈ names) :
    ∀ event ∈ Outcome.shadowing name, event.Possible policy names := by
  rw [Outcome.shadowing]
  split
  · exact List.forall_mem_singleton.mpr (.operatorShadowed hn)
  · exact List.forall_mem_nil _

theorem bound {o : Outcome Value} {name : String} (h : o.Records policy names)
    (hn : name ∈ names) : (o.bound policy name).Records policy names := by
  cases ho : o.result with
  | ok v =>
    have hd : ∀ event ∈ [Event.defined name v], event.Possible policy names :=
      List.forall_mem_singleton.mpr (.defined hn v)
    rw [bound_of_ok ho]
    exact h.noted rfl (List.forall_mem_append.mpr ⟨shadowing hn, hd⟩)
  | error e =>
    rw [bound_of_error ho]
    split
    · rename_i hp
      exact h.noted rfl (List.forall_mem_singleton.mpr (.nilBound hp hn e))
    · exact h

theorem asForm {o : Outcome Value} (h : o.Records policy names) (index : Nat) :
    (o.asForm index).Records policy names := by
  cases ho : o.result with
  | ok v =>
    rw [asForm_of_ok ho]
    exact h
  | error e =>
    rw [asForm_of_error ho]
    exact h.noted rfl (List.forall_mem_singleton.mpr (.formFailed index e))

theorem callOn [Host] {args : Evaluation (List Value)} {callee : Value} {env : Environment}
    (h : (args env).Records policy names) :
    (Evaluation.callOn args callee env).Records policy names := by
  cases hc : callee.asBuiltin with
  | error e =>
    rw [Evaluation.callOn_of_error hc]
    exact List.forall_mem_nil _
  | ok b =>
    rw [Evaluation.callOn_of_ok hc]
    exact h.andThen fun _ _ => List.forall_mem_nil _

end Records

end Outcome

variable [Host]

namespace Expr

open Evaluation

mutual

theorem eval_records (options : Options) {names : List String} (e : Expr) (budget : Nat)
    (env : Environment) (h : e.targets ⊆ names) :
    (e.eval options budget env).Records options.policy names := by
  match budget with
  | 0 =>
    rw [eval_zero]
    exact List.forall_mem_nil _
  | budget + 1 =>
    cases e with
    | atom value =>
      rw [eval_atom]
      exact List.forall_mem_singleton.mpr (.visited _)
    | symbol name =>
      rw [eval_symbol]
      exact List.forall_mem_singleton.mpr (.visited _)
    | sequence head args =>
      obtain ⟨hh, ha⟩ := List.append_subset.mp h
      rw [eval_sequence]
      apply Outcome.Records.logged _ (.visited _)
      apply (eval_records options head budget env hh).andThen
      intro callee env
      exact (evalArgs_records options args budget env ha).callOn
    | definition name value =>
      obtain ⟨hn, hv⟩ := List.cons_subset.mp h
      rw [eval_definition]
      exact ((eval_records options value budget env hv).bound hn).logged (.visited _)
    | conditional condition thenBranch elseBranch =>
      obtain ⟨hc, hb⟩ := List.append_subset.mp h
      obtain ⟨ht, he⟩ := List.append_subset.mp hb
      rw [eval_conditional]
      apply Outcome.Records.logged _ (.visited _)
      apply ((eval_records options condition budget env hc).asOperand _).andThen
      intro value env
      rw [choose]
      split
      · exact eval_records options thenBranch budget env ht
      · exact eval_records options elseBranch budget env he
termination_by structural e

theorem evalArgs_records (options : Options) {names : List String} (args : List Expr)
    (budget : Nat) (env : Environment) (h : targetsAll args ⊆ names) :
    (evalArgs options budget args env).Records options.policy names := by
  match args with
  | [] =>
    rw [evalArgs_nil]
    exact List.forall_mem_nil _
  | arg :: args =>
    obtain ⟨ha, hs⟩ := List.append_subset.mp h
    rw [evalArgs_cons]
    apply ((eval_records options arg budget env ha).asOperand _).andThen
    intro value env
    rw [map_apply]
    exact (evalArgs_records options args budget env hs).andThen fun _ _ => List.forall_mem_nil _
termination_by structural args

end

end Expr

theorem Program.evalFrom_records (options : Options) {names : List String} (index : Nat)
    (last : Value) (forms : List Expr) (env : Environment)
    (h : Expr.targetsAll forms ⊆ names) :
    (evalFrom options index last forms env).Records options.policy names := by
  induction forms generalizing index last env with
  | nil =>
    rw [evalFrom_nil]
    exact List.forall_mem_nil _
  | cons form forms ih =>
    obtain ⟨hf, hs⟩ := List.append_subset.mp h
    rw [evalFrom_cons]
    apply Outcome.Records.logged _ (.formStarted index form)
    apply ((form.eval_records options options.maxDepth env hf).asForm index).andThen
    intro value env
    exact ih (index + 1) value env hs

end LispCalc
