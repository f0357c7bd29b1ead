import LispCalc.Proofs.HostFree
import LispCalc.Proofs.Outcome

namespace LispCalc

variable {α β : Type}

namespace Expr

mutual

/-- An expression and all its parts, in the order of its text. -/
def nodes : Expr → List Expr
  | .atom value => [.atom value]
  | .symbol name => [.symbol name]
  | .sequence head args => .sequence head args :: (head.nodes ++ nodesAll args)
  | .definition name value => .definition name value :: value.nodes
  | .conditional condition thenBranch elseBranch =>
    .conditional condition thenBranch elseBranch ::
      (condition.nodes ++ (thenBranch.nodes ++ elseBranch.nodes))

def nodesAll : List Expr → List Expr
  | [] => []
  | e :: es => e.nodes ++ nodesAll es

end

end Expr

/-- What an error says about a program with these nodes and the environment in which it ends. A
lenient evaluation may have bound an unbound name to nil after it was looked up. -/
def EvalError.Truthful (options : Options) (nodes : List Expr) (env : Environment) :
    EvalError → Prop
  | .unboundSymbol name =>
    .symbol name ∈ nodes ∧ (options.policy = .strict → env.get? name = none)
  | .notCallable found => found ≠ Kind.builtin.name
  | .typeMismatch op expected found =>
    op ∈ Operator.numeric.map Operator.name ∧ expected = Kind.number.name ∧ found ≠ expected
  | .arityMismatch _ expected received =>
    expected = 2 ∧ received ≠ 2 ∧
      ∃ head args, .sequence head args ∈ nodes ∧ received = args.length
  | .divisionByZero op => op = Operator.mod.name
  | .invalidShift op count =>
    (op = Operator.shiftRight.name ∨ op = Operator.shiftLeft.name) ∧ count < 0
  | .recursionLimit limit => limit = options.maxDepth

section

variable {options : Options} {nodes : List Expr}

theorem EvalError.Truthful.of_lenient {env : Environment} {e : EvalError}
    (h : e.Truthful options nodes env) (hp : options.policy.swallowsErrors) (env' : Environment) :
    e.Truthful options nodes env' := by
  cases e with
  | unboundSymbol name =>
    refine ⟨h.1, fun hs => ?_⟩
    rw [hs] at hp
    cases hp
  | notCallable | typeMismatch | arityMismatch | divisionByZero | invalidShift
  | recursionLimit => exact h

/-- The arguments that an operator refuses are the values of those in the program. -/
theorem Operator.Fails.truthful {op : Operator} {values : List Value} {e : EvalError}
    (h : op.Fails values e) {head : Expr} {args : List Expr} (hs : .sequence head args ∈ nodes)
    (hl : values.length = args.length) (env : Environment) : e.Truthful options nodes env := by
  cases h with
  | arity h => exact ⟨rfl, h, head, args, hs, hl⟩
  | kind ho hv =>
    have hk := List.find?_some hv
    exact ⟨List.mem_map_of_mem ho, rfl, mt Kind.eq_of_name_eq (of_decide_eq_true hk)⟩
  | division ho => exact congrArg name ho
  | shift ho hc => exact ⟨ho.imp (congrArg name) (congrArg name), hc⟩

namespace Outcome

/-- An error is truthful where it is returned, a value satisfies `p`, and the environment is free
of the host. -/
structure Honest (options : Options) (nodes : List Expr) (p : α → Prop) (o : Outcome α) :
    Prop where
  error : ∀ e, o.result = .error e → e.Truthful options nodes o.environment
  environment : o.environment.HostFree
  value : ∀ a, o.result = .ok a → p a

namespace Honest

variable {p : α → Prop} {q : β → Prop}

theorem ok {a : α} {env : Environment} {log : List Event} (ha : p a) (h : env.HostFree) :
    Honest options nodes p ⟨.ok a, env, log⟩ := by
  refine ⟨?_, h, ?_⟩
  · rintro e he
    cases he
  · rintro b hb
    cases hb
    exact ha

theorem failed {e : EvalError} {env : Environment} {log : List Event}
    (he : e.Truthful options nodes env) (h : env.HostFree) :
    Honest options nodes p ⟨.error e, env, log⟩ := by
  refine ⟨?_, h, ?_⟩
  · rintro e' he'
    cases he'
    exact he
  · rintro a ha
    cases ha

theorem logged {o : Outcome α} (h : o.Honest options nodes p) (events : List Event) :
    (o.logged events).Honest options nodes p :=
  ⟨h.error, h.environment, h.value⟩

theorem andThen {o : Outcome α} {next : α → Evaluation β} (h : o.Honest options nodes p)
    (hn : ∀ a env, p a → env.HostFree → (next a env).Honest options nodes q) :
    (o.andThen next).Honest options nodes q := by
  cases ho : o.result with
  | error e =>
    rw [andThen_of_error ho]
    exact failed (h.error e ho) h.environment
  | ok a =>
    rw [andThen_of_ok ho]
    exact (hn a o.environment (h.value a ho) h.environment).logged o.log

theorem asOperand {o : Outcome Value} (h : o.Honest options nodes Value.HostFree)
    (policy : Policy) (role : Role) :
    (o.asOperand policy role).Honest options nodes Value.HostFree := by
  cases ho : o.result with
  | ok v =>
    rw [asOperand_of_ok ho]
    exact h
  | error e =>
    rw [asOperand_of_error ho]
    split
    · exact ok trivial h.environment
    · exact h

/-- Under the lenient policy the name is bound after the error was raised, under the strict one
nothing is. -/
theorem bound {o : Outcome Value} (h : o.Honest options nodes Value.HostFree) (name : String) :
    (o.bound options.policy name).Honest options nodes Value.HostFree := by
  cases ho : o.result with
  | ok v =>
    have hv := h.value v ho
    rw [bound_of_ok ho]
    exact ok hv (h.environment.define name hv)
  | error e =>
    rw [bound_of_error ho]
    split
    · rename_i hp
      exact failed ((h.error e ho).of_lenient hp _) (h.environment.define name trivial)
    · exact h

theorem asForm {o : Outcome Value} (h : o.Honest options nodes Value.HostFree) (index : Nat) :
    (o.asForm index).Honest options nodes Value.HostFree := by
  cases ho : o.result with
  | ok v =>
    rw [asForm_of_ok ho]
    exact h
  | error e =>
    rw [asForm_of_error ho]
    exact failed (h.error e ho) h.environment

theorem callOn [Host] {head : Expr} {args : List Expr} {values : Evaluation (List Value)}
    {callee : Value} {env : Environment} (hs : .sequence head args ∈ nodes)
    (hc : callee.HostFree) (he : env.HostFree)
    (h : (values env).Honest options nodes fun vs => vs.length = args.length) :
    (Evaluation.callOn values callee env).Honest options nodes Value.HostFree := by
  cases hb : callee.asBuiltin with
  | error e =>
    obtain ⟨hk, rfl⟩ := Value.asBuiltin_error hb
    rw [Evaluation.callOn_of_error hb]
    exact failed (mt Kind.eq_of_name_eq hk) he
  | ok b =>
    obtain ⟨op, ho⟩ := hc.exists_call_eq hb
    rw [Evaluation.callOn_of_ok hb]
    apply h.andThen
    intro vs env hl he
    rw [ho vs]
    refine ⟨fun e hf => ?_, he, fun r hr => Operator.hostFree_of_apply hr⟩
    exact (Operator.fails_of_apply hf).truthful hs hl env

end Honest

end Outcome

namespace Expr

open Evaluation

theorem lookup_honest {name : String} {env : Environment} (h : .symbol name ∈ nodes)
    (he : env.HostFree) (log : List Event) :
    Outcome.Honest options nodes Value.HostFree ⟨env.lookup name, env, log⟩ := by
  cases hg : env.get? name with
  | some value =>
    rw [Environment.lookup, hg]
    exact .ok (he name value hg) he
  | none =>
    rw [Environment.lookup, hg]
    exact .failed ⟨h, fun _ => hg⟩ he

variable [Host]

mutual

theorem eval_honest (e : Expr) (budget : Nat) {env : Environment} (h : e.nodes ⊆ nodes)
    (hf : e.HostFree) (he : env.HostFree) :
    (e.eval options budget env).Honest options nodes Value.HostFree := by
  match budget with
  | 0 =>
    rw [eval_zero]
    exact .failed rfl he
  | budget + 1 =>
    cases e with
    | atom value =>
      rw [eval_atom]
      exact .ok (hf value List.mem_cons_self) he
    | symbol name =>
      rw [eval_symbol]
      exact lookup_honest (h List.mem_cons_self) he _
    | sequence head args =>
      obtain ⟨hs, h⟩ := List.cons_subset.mp h
      obtain ⟨hh, ha⟩ := List.append_subset.mp h
      obtain ⟨hfh, hfa⟩ := List.forall_mem_append.mp hf
      rw [eval_sequence]
      apply Outcome.Honest.logged
      apply (eval_honest head budget hh hfh he).andThen
      intro callee env hc he
      exact .callOn hs hc he (evalArgs_honest args budget ha hfa he)
    | definition name value =>
      obtain ⟨-, hv⟩ := List.cons_subset.mp h
      rw [eval_definition]
      exact ((eval_honest value budget hv hf he).bound name).logged _
    | conditional condition thenBranch elseBranch =>
      obtain ⟨-, h⟩ := List.cons_subset.mp h
      obtain ⟨hc, hb⟩ := List.append_subset.mp h
      obtain ⟨ht, hl⟩ := List.append_subset.mp hb
      obtain ⟨hfc, hfb⟩ := List.forall_mem_append.mp hf
      obtain ⟨hft, hfe⟩ := List.forall_mem_append.mp hfb
      rw [eval_conditional]
      apply Outcome.Honest.logged
      apply ((eval_honest condition budget hc hfc he).asOperand _ _).andThen
      intro value env _ he
      rw [choose]
      split
      · exact eval_honest thenBranch budget ht hft he
      · exact eval_honest elseBranch budget hl hfe he
termination_by structural e

theorem evalArgs_honest (args : List Expr) (budget : Nat) {env : Environment}
    (h : nodesAll args ⊆ nodes) (hf : Program.HostFree args) (he : env.HostFree) :
    (evalArgs options budget args env).Honest options nodes
      fun values => values.length = args.length := by
  match args with
  | [] =>
    rw [evalArgs_nil]
    exact .ok rfl he
  | arg :: args =>
    obtain ⟨ha, hs⟩ := List.append_subset.mp h
    obtain ⟨hfa, hfs⟩ := List.forall_mem_append.mp hf
    rw [evalArgs_cons]
    apply ((eval_honest arg budget ha hfa he).asOperand _ _).andThen
    intro value env _ he
    rw [map_apply]
    apply (evalArgs_honest args budget hs hfs he).andThen
    intro values env hl he
    exact .ok (congrArg (· + 1) hl) he
termination_by structural args

end

end Expr

namespace Program

theorem evalFrom_honest [Host] (index : Nat) {last : Value} {forms : List Expr}
    {env : Environment} (h : Expr.nodesAll forms ⊆ nodes) (hl : last.HostFree)
    (hf : HostFree forms) (he : env.HostFree) :
    (evalFrom options index last forms env).Honest options nodes Value.HostFree := by
  induction forms generalizing index last env with
  | nil =>
    rw [evalFrom_nil]
    exact .ok hl he
  | cons form forms ih =>
    obtain ⟨ha, hs⟩ := List.append_subset.mp h
    obtain ⟨hfa, hfs⟩ := List.forall_mem_append.mp hf
    rw [evalFrom_cons]
    apply Outcome.Honest.logged
    apply ((form.eval_honest options.maxDepth ha hfa he).asForm index).andThen
    intro value env hv he
    exact ih (index + 1) hs hv hfs he

end Program

end

namespace Program

/-- Without functions of the host, the error of a program says what is so of its nodes, the
options and the environment at the end. -/
theorem returned_error_truthful [Host] {options : Options} {program : List Expr}
    {env : Environment} (hf : HostFree program) (he : env.HostFree) {e : EvalError}
    (h : (eval options program env).result = .error e) :
    e.Truthful options (Expr.nodesAll program) (eval options program env).environment :=
  (evalFrom_honest 0 (List.Subset.refl _) Value.hostFree_nil hf he).error e h

attribute [local instance] Host.none

theorem returned_error_truthful_unbound :
    let program : List Expr := [.definition "y" (.atom (.bool true)),
      .definition "x" (.sequence (.symbol "+") [.definition "z" (.symbol "y"), .symbol "x"])]
    let o := eval ⟨.strict, 9⟩ program .initial
    o.result = .error (.unboundSymbol "x") ∧ .symbol "x" ∈ Expr.nodesAll program ∧
      o.environment.get? "x" = none := by
  intro program o
  have ho : o.result = .error (.unboundSymbol "x") := rfl
  have hf : HostFree program := List.forall_mem_singleton.mpr trivial
  obtain ⟨hn, hu⟩ := returned_error_truthful hf Environment.initial_hostFree ho
  exact ⟨ho, hn, hu rfl⟩

end Program

end LispCalc
