import Mathlib.Data.List.Forall2
import LispCalc.Proofs.Outcome

namespace LispCalc

variable {α β : Type}

namespace Environment

def write (env : Environment) (writes : List (String × Value)) : Environment :=
  writes.foldl (fun env w => env.define w.1 w.2) env

theorem write_append (env : Environment) (writes writes' : List (String × Value)) :
    env.write (writes ++ writes') = (env.write writes).write writes' :=
  List.foldl_append

theorem contains_write {env : Environment} {name : String} (h : env.contains name)
    (writes : List (String × Value)) : (env.write writes).contains name := by
  induction writes generalizing env with
  | nil => exact h
  | cons w writes ih =>
    apply ih
    rw [contains, get?_define]
    split
    · rfl
    · exact h

end Environment

/-- The name that an event says is bound now, and its value. -/
def Event.write? : Event → Option (String × Value)
  | .defined name value => some (name, value)
  | .nilBound name _ => some (name, .nil)
  | _ => none

namespace Notice

/-- What a notice says about a write: the name, and the text of the value unless it is nil for a
failed definition. -/
inductive Announces : Notice → String × Value → Prop
  | defined (name : String) (value : Value) :
    Announces ⟨.debug, "define", [("name", name), ("value", value.text)]⟩ (name, value)
  | nilBound (name : String) (error : EvalError) :
    Announces
      ⟨.warn, "binding nil after failed definition", [("name", name), ("error", error.message)]⟩
      (name, .nil)

def isWrite (n : Notice) : Bool :=
  (n.level = .debug && n.message = "define") ||
    (n.level = .warn && n.message = "binding nil after failed definition")

end Notice

theorem Event.announces_of_write {event : Event} {w : String × Value}
    (h : event.write? = some w) :
    ∃ n, event.notice? = some n ∧ n.isWrite ∧ n.Announces w := by
  cases event with
  | defined name value =>
    cases h
    exact ⟨_, rfl, rfl, .defined name value⟩
  | nilBound name error =>
    cases h
    exact ⟨_, rfl, rfl, .nilBound name error⟩
  | visited | formStarted | formFailed | operatorShadowed | nilSubstituted => cases h

theorem Event.not_isWrite_of_no_write {event : Event} (h : event.write? = none) :
    ∀ n ∈ event.notice?, n.isWrite = false := by
  intro n hn
  cases event with
  | defined | nilBound => cases h
  | visited => cases hn
  | formStarted | formFailed | operatorShadowed =>
    cases hn
    rfl
  | nilSubstituted role error =>
    cases hn
    cases role <;> rfl

theorem Event.forall₂_announces (log : List Event) :
    List.Forall₂ Notice.Announces ((log.filterMap notice?).filter Notice.isWrite)
      (log.filterMap write?) := by
  induction log with
  | nil => exact .nil
  | cons event log ih =>
    cases hw : event.write? with
    | none =>
      rw [List.filterMap_cons_none hw]
      cases hn : event.notice? with
      | none =>
        rw [List.filterMap_cons_none hn]
        exact ih
      | some n =>
        have hq := not_isWrite_of_no_write hw n hn
        rw [List.filterMap_cons_some hn, List.filter_cons_of_neg (by simp [hq])]
        exact ih
    | some w =>
      obtain ⟨n, hn, hq, ha⟩ := announces_of_write hw
      rw [List.filterMap_cons_some hw, List.filterMap_cons_some hn, List.filter_cons_of_pos hq]
      exact .cons ha ih

namespace Outcome

/-- The writes that the log announces, in order. -/
def writes (o : Outcome α) : List (String × Value) :=
  o.log.filterMap Event.write?

/-- The environment is the one from the start after the announced writes. -/
def Replays (start : Environment) (o : Outcome α) : Prop :=
  o.environment = start.write o.writes

theorem writes_logged (events : List Event) (o : Outcome α) :
    (o.logged events).writes = events.filterMap Event.write? ++ o.writes :=
  List.filterMap_append

/-- A definition writes what its value writes, and then its name: the value, or nil for a failed
definition under the lenient policy. -/
theorem writes_bound (o : Outcome Value) (policy : Policy) (name : String) :
    (o.bound policy name).writes =
      o.writes ++
        match o.result with
        | .ok value => [(name, value)]
        | .error _ => if policy.swallowsErrors then [(name, .nil)] else [] := by
  cases ho : o.result with
  | ok value =>
    rw [bound_of_ok ho, writes, List.filterMap_append, List.filterMap_append,
      filterMap_shadowing rfl]
    rfl
  | error e =>
    rw [bound_of_error ho]
    split
    · rw [writes, List.filterMap_append]
      rfl
    · rw [List.append_nil]

namespace Replays

variable {start : Environment}

theorem silent {o o' : Outcome α} (h : Replays start o) (he : o'.environment = o.environment)
    (hw : o'.writes = o.writes) : Replays start o' := by
  rw [Replays, he, hw]
  exact h

theorem logged {o : Outcome α} {event : Event} (h : Replays start o)
    (he : event.write? = none) : Replays start (o.logged [event]) := by
  refine h.silent rfl ?_
  rw [writes_logged, List.filterMap_cons_none he]
  rfl

theorem andThen {o : Outcome α} {next : α → Evaluation β} (h : Replays start o)
    (hn : ∀ a env, Replays env (next a env)) : Replays start (o.andThen next) := by
  cases ho : o.result with
  | error e =>
    rw [andThen_of_error ho]
    exact h
  | ok a =>
    have hr := hn a o.environment
    rw [Replays] at h hr
    rw [andThen_of_ok ho, Replays, writes_logged, Environment.write_append]
    change (next a o.environment).environment = (start.write o.writes).write _
    rw [← h]
    exact hr

theorem asOperand {o : Outcome Value} (h : Replays start o) (policy : Policy) (role : Role) :
    Replays start (o.asOperand policy role) := by
  rw [Outcome.asOperand]
  split
  · exact h
  · split
    · refine h.silent rfl ?_
      rw [writes, List.filterMap_append]
      exact List.append_nil _
    · exact h

theorem asForm {o : Outcome Value} (h : Replays start o) (index : Nat) :
    Replays start (o.asForm index) := by
  rw [Outcome.asForm]
  split
  · exact h
  · refine h.silent rfl ?_
    rw [writes, List.filterMap_append]
    exact List.append_nil _

theorem bound {o : Outcome Value} (h : Replays start o) (policy : Policy) (name : String) :
    Replays start (o.bound policy name) := by
  rw [Replays] at h ⊢
  rw [writes_bound, Environment.write_append, ← h]
  cases ho : o.result with
  | ok value =>
    rw [bound_of_ok ho]
    rfl
  | error e =>
    rw [bound_of_error ho]
    split <;> rfl

theorem callOn [Host] {args : Evaluation (List Value)} {callee : Value} {env : Environment}
    (h : Replays env (args env)) : Replays env (Evaluation.callOn args callee env) := by
  cases hc : callee.asBuiltin with
  | error e =>
    rw [Evaluation.callOn_of_error hc]
    rfl
  | ok b =>
    rw [Evaluation.callOn_of_ok hc]
    apply h.andThen
    intro values env
    rfl

end Replays

end Outcome

namespace Expr

variable [Host]

open Evaluation

mutual

theorem eval_replays (options : Options) (e : Expr) (budget : Nat) (env : Environment) :
    (e.eval options budget env).Replays env := by
  match budget with
  | 0 =>
    rw [eval_zero]
    rfl
  | budget + 1 =>
    cases e with
    | atom value =>
      rw [eval_atom]
      rfl
    | symbol name =>
      rw [eval_symbol]
      rfl
    | sequence head args =>
      rw [eval_sequence]
      apply Outcome.Replays.logged _ rfl
      apply (eval_replays options head budget env).andThen
      intro callee env
      exact (evalArgs_replays options args budget env).callOn
    | definition name value =>
      rw [eval_definition]
      exact ((eval_replays options value budget env).bound options.policy name).logged rfl
    | conditional condition thenBranch elseBranch =>
      rw [eval_conditional]
      apply Outcome.Replays.logged _ rfl
      apply ((eval_replays options condition budget env).asOperand options.policy _).andThen
      intro value env
      rw [choose]
      split
      · exact eval_replays options thenBranch budget env
      · exact eval_replays options elseBranch budget env
termination_by structural e

theorem evalArgs_replays (options : Options) (args : List Expr) (budget : Nat)
    (env : Environment) : (evalArgs options budget args env).Replays env := by
  match args with
  | [] =>
    rw [evalArgs_nil]
    rfl
  | arg :: args =>
    rw [evalArgs_cons]
    apply ((eval_replays options arg budget env).asOperand options.policy _).andThen
    intro value env
    rw [map_apply]
    apply (evalArgs_replays options args budget env).andThen
    intro values env
    rfl
termination_by structural args

end

end Expr

theorem Program.evalFrom_replays [Host] (options : Options) (index : Nat) (last : Value)
    (forms : List Expr) (env : Environment) :
    (evalFrom options index last forms env).Replays env := by
  induction forms generalizing index last env with
  | nil =>
    rw [evalFrom_nil]
    rfl
  | cons form forms ih =>
    rw [evalFrom_cons]
    apply Outcome.Replays.logged _ rfl
    apply ((form.eval_replays options options.maxDepth env).asForm index).andThen
    intro value env
    exact ih (index + 1) value env

/-- The changes from the start are writes that the log announces, one notice for one write, in
order; no name becomes unbound. -/
structure Outcome.ChangesAsAnnounced (start : Environment) (o : Outcome α) : Prop where
  announced : List.Forall₂ Notice.Announces
    ((o.log.filterMap Event.notice?).filter Notice.isWrite) o.writes
  written : o.environment = start.write o.writes
  stillBound : ∀ name, start.contains name → o.environment.contains name

theorem Outcome.Replays.changesAsAnnounced {start : Environment} {o : Outcome α}
    (h : Replays start o) : ChangesAsAnnounced start o := by
  refine ⟨Event.forall₂_announces o.log, h, ?_⟩
  intro name hn
  rw [h]
  exact Environment.contains_write hn o.writes

/-- An evaluation of an expression or a program changes the environment by the writes that its log
announces, and by nothing else. The writes of a definition are those of its value and then its
own: one of the value, or, if that fails, one of nil under the lenient policy and none under the
strict one. -/
theorem eval_changes_as_announced [Host] (options : Options) (start : Environment) :
    (∀ (e : Expr) (budget : Nat), (e.eval options budget start).ChangesAsAnnounced start) ∧
    (∀ program : List Expr, (Program.eval options program start).ChangesAsAnnounced start) ∧
    ∀ (name : String) (value : Expr) (budget : Nat),
      let o := value.eval options budget start
      ((Expr.definition name value).eval options (budget + 1) start).writes =
        o.writes ++
          match o.result with
          | .ok v => [(name, v)]
          | .error _ => if options.policy = .lenient then [(name, .nil)] else [] := by
  refine ⟨?_, ?_, ?_⟩
  · intro e budget
    exact (e.eval_replays options budget start).changesAsAnnounced
  · intro program
    exact (Program.evalFrom_replays options 0 .nil program start).changesAsAnnounced
  · intro name value budget o
    rw [Expr.eval_definition, Outcome.writes_logged, Outcome.writes_bound]
    cases hp : options.policy <;> rfl

end LispCalc
