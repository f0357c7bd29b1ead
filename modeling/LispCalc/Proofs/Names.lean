import LispCalc.Proofs.Events
import LispCalc.Proofs.Writes

namespace LispCalc

variable {α β : Type}

namespace Expr

mutual

/-- The names that stand as symbols in an expression. -/
def symbols : Expr → List String
  | .atom _ => []
  | .symbol name => [name]
  | .sequence head args => head.symbols ++ symbolsAll args
  | .definition _ value => value.symbols
  | .conditional condition thenBranch elseBranch =>
    condition.symbols ++ (thenBranch.symbols ++ elseBranch.symbols)

def symbolsAll : List Expr → List String
  | [] => []
  | e :: es => e.symbols ++ symbolsAll es

end

end Expr

namespace Environment

/-- Each of the names has the same value in both, or is unbound in both. -/
def AgreeOn (names : List String) (env env' : Environment) : Prop :=
  ∀ name ∈ names, env.get? name = env'.get? name

theorem AgreeOn.lookup {names : List String} {env env' : Environment} {name : String}
    (h : env.AgreeOn names env') (hn : name ∈ names) : env.lookup name = env'.lookup name := by
  rw [Environment.lookup, Environment.lookup, h name hn]

theorem AgreeOn.define {names : List String} {env env' : Environment}
    (h : env.AgreeOn names env') (name : String) (value : Value) :
    (env.define name value).AgreeOn names (env'.define name value) := by
  intro key hk
  rw [get?_define, get?_define, h key hk]

theorem get?_write_congr {env env' : Environment} {name : String} (writes : List (String × Value))
    (h : name ∈ writes.map Prod.fst ∨ env.get? name = env'.get? name) :
    (env.write writes).get? name = (env'.write writes).get? name := by
  induction writes generalizing env env' with
  | nil => exact h.resolve_left List.not_mem_nil
  | cons w writes ih =>
    apply ih
    rw [get?_define, get?_define]
    by_cases hw : name = w.1
    · rw [if_pos hw, if_pos hw]
      exact .inr rfl
    · rw [if_neg hw, if_neg hw]
      exact h.imp_left fun hm => (List.mem_cons.mp hm).resolve_left hw

theorem get?_write_of_not_mem {name : String} {writes : List (String × Value)}
    (h : name ∉ writes.map Prod.fst) (env : Environment) :
    (env.write writes).get? name = env.get? name := by
  induction writes generalizing env with
  | nil => rfl
  | cons w writes ih =>
    obtain ⟨hw, hr⟩ := List.ne_and_not_mem_of_not_mem_cons h
    have hi := ih hr (env.define w.1 w.2)
    rwa [get?_define, if_neg hw] at hi

end Environment

theorem Event.Possible.mem_of_write {policy : Policy} {names : List String} {event : Event}
    {w : String × Value} (h : event.Possible policy names) (hw : event.write? = some w) :
    w.1 ∈ names := by
  cases h with
  | defined hn value =>
    cases hw
    exact hn
  | nilBound hp hn error =>
    cases hw
    exact hn
  | visited | formStarted | formFailed | operatorShadowed | nilSubstituted => cases hw

theorem Outcome.Records.mem_of_mem_writes {policy : Policy} {names : List String} {o : Outcome α}
    {name : String} (h : o.Records policy names) (hn : name ∈ o.writes.map Prod.fst) :
    name ∈ names := by
  obtain ⟨w, hw, rfl⟩ := List.mem_map.mp hn
  obtain ⟨event, he, hw⟩ := List.mem_filterMap.mp hw
  exact (h event he).mem_of_write hw

namespace Outcome

/-- Two outcomes that differ at most in bindings of other names. -/
structure Alike (names : List String) (o o' : Outcome α) : Prop where
  result : o.result = o'.result
  agree : o.environment.AgreeOn names o'.environment
  log : o.log = o'.log

namespace Alike

variable {names : List String}

theorem logged {o o' : Outcome α} (h : Alike names o o') (events : List Event) :
    Alike names (o.logged events) (o'.logged events) :=
  ⟨h.result, h.agree, congrArg (events ++ ·) h.log⟩

theorem andThen {o o' : Outcome α} {next next' : α → Evaluation β} (h : Alike names o o')
    (hn : ∀ a env env', env.AgreeOn names env' → Alike names (next a env) (next' a env')) :
    Alike names (o.andThen next) (o'.andThen next') := by
  have hr := h.result
  cases ho : o.result with
  | error e =>
    rw [ho] at hr
    rw [andThen_of_error ho, andThen_of_error hr.symm]
    exact ⟨rfl, h.agree, h.log⟩
  | ok a =>
    rw [ho] at hr
    rw [andThen_of_ok ho, andThen_of_ok hr.symm, h.log]
    exact (hn a _ _ h.agree).logged o'.log

theorem asOperand {o o' : Outcome Value} (h : Alike names o o') (policy : Policy) (role : Role) :
    Alike names (o.asOperand policy role) (o'.asOperand policy role) := by
  have hr := h.result
  cases ho : o.result with
  | ok v =>
    rw [ho] at hr
    rw [asOperand_of_ok ho, asOperand_of_ok hr.symm]
    exact h
  | error e =>
    rw [ho] at hr
    rw [asOperand_of_error ho, asOperand_of_error hr.symm]
    split
    · exact ⟨rfl, h.agree, congrArg (· ++ _) h.log⟩
    · exact h

theorem bound {o o' : Outcome Value} (h : Alike names o o') (policy : Policy) (name : String) :
    Alike names (o.bound policy name) (o'.bound policy name) := by
  have hr := h.result
  cases ho : o.result with
  | ok v =>
    rw [ho] at hr
    rw [bound_of_ok ho, bound_of_ok hr.symm]
    exact ⟨rfl, h.agree.define name v, congrArg (· ++ _) h.log⟩
  | error e =>
    rw [ho] at hr
    rw [bound_of_error ho, bound_of_error hr.symm]
    split
    · exact ⟨rfl, h.agree.define name .nil, congrArg (· ++ _) h.log⟩
    · exact h

theorem asForm {o o' : Outcome Value} (h : Alike names o o') (index : Nat) :
    Alike names (o.asForm index) (o'.asForm index) := by
  have hr := h.result
  cases ho : o.result with
  | ok v =>
    rw [ho] at hr
    rw [asForm_of_ok ho, asForm_of_ok hr.symm]
    exact h
  | error e =>
    rw [ho] at hr
    rw [asForm_of_error ho, asForm_of_error hr.symm]
    exact ⟨rfl, h.agree, congrArg (· ++ _) h.log⟩

theorem callOn [Host] {args args' : Evaluation (List Value)} {env env' : Environment}
    (ha : env.AgreeOn names env') (h : Alike names (args env) (args' env')) (callee : Value) :
    Alike names (Evaluation.callOn args callee env) (Evaluation.callOn args' callee env') := by
  cases hc : callee.asBuiltin with
  | error e =>
    rw [Evaluation.callOn_of_error hc, Evaluation.callOn_of_error hc]
    exact ⟨rfl, ha, rfl⟩
  | ok b =>
    rw [Evaluation.callOn_of_ok hc, Evaluation.callOn_of_ok hc]
    apply h.andThen
    intro values env env' ha
    exact ⟨rfl, ha, rfl⟩

end Alike

end Outcome

namespace Expr

variable [Host]

open Evaluation

mutual

theorem eval_alike (options : Options) {names : List String} (e : Expr) (budget : Nat)
    {env env' : Environment} (h : e.symbols ⊆ names) (ha : env.AgreeOn names env') :
    (e.eval options budget env).Alike names (e.eval options budget env') := by
  match budget with
  | 0 =>
    rw [eval_zero, eval_zero]
    exact ⟨rfl, ha, rfl⟩
  | budget + 1 =>
    cases e with
    | atom value =>
      rw [eval_atom, eval_atom]
      exact ⟨rfl, ha, rfl⟩
    | symbol name =>
      rw [eval_symbol, eval_symbol]
      exact ⟨ha.lookup (h List.mem_cons_self), ha, rfl⟩
    | sequence head args =>
      obtain ⟨hh, hs⟩ := List.append_subset.mp h
      rw [eval_sequence, eval_sequence]
      apply Outcome.Alike.logged
      apply (eval_alike options head budget hh ha).andThen
      intro callee env env' ha
      exact Outcome.Alike.callOn ha (evalArgs_alike options args budget hs ha) callee
    | definition name value =>
      rw [eval_definition, eval_definition]
      exact ((eval_alike options value budget h ha).bound options.policy name).logged _
    | conditional condition thenBranch elseBranch =>
      obtain ⟨hc, hb⟩ := List.append_subset.mp h
      obtain ⟨ht, he⟩ := List.append_subset.mp hb
      rw [eval_conditional, eval_conditional]
      apply Outcome.Alike.logged
      apply ((eval_alike options condition budget hc ha).asOperand options.policy _).andThen
      intro value env env' ha
      rw [choose]
      split
      · exact eval_alike options thenBranch budget ht ha
      · exact eval_alike options elseBranch budget he ha
termination_by structural e

theorem evalArgs_alike (options : Options) {names : List String} (args : List Expr)
    (budget : Nat) {env env' : Environment} (h : symbolsAll args ⊆ names)
    (ha : env.AgreeOn names env') :
    (evalArgs options budget args env).Alike names (evalArgs options budget args env') := by
  match args with
  | [] =>
    rw [evalArgs_nil, evalArgs_nil]
    exact ⟨rfl, ha, rfl⟩
  | arg :: args =>
    obtain ⟨hf, hs⟩ := List.append_subset.mp h
    rw [evalArgs_cons, evalArgs_cons]
    apply ((eval_alike options arg budget hf ha).asOperand options.policy _).andThen
    intro value env env' ha
    rw [map_apply, map_apply]
    apply (evalArgs_alike options args budget hs ha).andThen
    intro values env env' ha
    exact ⟨rfl, ha, rfl⟩
termination_by structural args

end

end Expr

namespace Program

theorem evalFrom_alike [Host] (options : Options) {names : List String} (index : Nat) (last : Value)
    (forms : List Expr) {env env' : Environment} (h : Expr.symbolsAll forms ⊆ names)
    (ha : env.AgreeOn names env') :
    (evalFrom options index last forms env).Alike names
      (evalFrom options index last forms env') := by
  induction forms generalizing index last env env' with
  | nil =>
    rw [evalFrom_nil, evalFrom_nil]
    exact ⟨rfl, ha, rfl⟩
  | cons form forms ih =>
    obtain ⟨hf, hs⟩ := List.append_subset.mp h
    rw [evalFrom_cons, evalFrom_cons]
    apply Outcome.Alike.logged
    apply ((form.eval_alike options options.maxDepth hf ha).asForm index).andThen
    intro value env env' ha
    exact ih (index + 1) value hs ha

/-- From environments that agree on the symbols of a program its evaluation has the same result,
log and writes, and leaves environments that agree on these names and on those written. A name
that no definition of the program binds keeps its binding, or stays unbound. -/
theorem eval_of_agreeOn_symbols [Host] (options : Options) (program : List Expr)
    {env env' : Environment} (h : env.AgreeOn (Expr.symbolsAll program) env') :
    let o := eval options program env
    let o' := eval options program env'
    o.result = o'.result ∧ o.log = o'.log ∧
      (∃ writes, o.writes = writes ∧ o'.writes = writes ∧
        o.environment = env.write writes ∧ o'.environment = env'.write writes ∧
        o.environment.AgreeOn (Expr.symbolsAll program ++ writes.map Prod.fst) o'.environment) ∧
      ∀ name, name ∉ Expr.targetsAll program → o.environment.get? name = env.get? name := by
  intro o o'
  have hs : o.Alike (Expr.symbolsAll program) o' :=
    evalFrom_alike options 0 .nil program (List.Subset.refl _) h
  have hw : o.writes = o'.writes := congrArg (List.filterMap Event.write?) hs.log
  have he : o.environment = env.write o.writes := evalFrom_replays options 0 .nil program env
  have he' : o'.environment = env'.write o'.writes := evalFrom_replays options 0 .nil program env'
  rw [← hw] at he'
  refine ⟨hs.result, hs.log, ⟨o.writes, rfl, hw.symm, he, he', ?_⟩, ?_⟩
  · intro name hn
    rcases List.mem_append.mp hn with hn | hn
    · exact hs.agree name hn
    · rw [he, he']
      exact Environment.get?_write_congr o.writes (.inl hn)
  · intro name hn
    have hr : o.Records options.policy (Expr.targetsAll program) :=
      evalFrom_records options 0 .nil program env (List.Subset.refl _)
    rw [he]
    exact Environment.get?_write_of_not_mem (fun hm => hn (hr.mem_of_mem_writes hm)) env

attribute [local instance] Host.none

theorem eval_of_agreeOn_symbols_failing :
    let program : List Expr := [.definition "x" (.symbol "y"), .symbol "x"]
    let env := Environment.empty.define "z" (.bool true)
    env.AgreeOn (Expr.symbolsAll program) .empty ∧
      (eval ⟨.lenient, 9⟩ program env).writes = [("x", .nil)] ∧
      (eval ⟨.lenient, 9⟩ program env).writes = (eval ⟨.lenient, 9⟩ program .empty).writes := by
  intro program env
  have ha : env.AgreeOn (Expr.symbolsAll program) .empty := by
    intro name hn
    simp only [program, Expr.symbolsAll, Expr.symbols, List.append_nil, List.singleton_append,
      List.mem_cons, List.not_mem_nil, or_false] at hn
    rcases hn with rfl | rfl <;> rfl
  obtain ⟨-, -, ⟨writes, hw, hw', -⟩, -⟩ := eval_of_agreeOn_symbols ⟨.lenient, 9⟩ program ha
  exact ⟨ha, rfl, hw.trans hw'.symm⟩

end Program

end LispCalc
