import Mathlib.Data.List.Nodup
import LispCalc.Proofs.LimitedVisits

namespace LispCalc

variable {α β : Type}

/-- A call on a child of a node: its number, the child, and the environment in which it is
evaluated. -/
structure Descent where
  child : Nat
  expr : Expr
  environment : Environment

def Descent.numbered (d : Descent) : Expr × Nat :=
  (d.expr, d.child)

namespace Outcome

def descentsThen (o : Outcome α) (next : α → Environment → List Descent) : List Descent :=
  match o.result with
  | .error _ => []
  | .ok a => next a o.environment

theorem descentsThen_of_ok {o : Outcome α} {a : α} (h : o.result = .ok a)
    (next : α → Environment → List Descent) : o.descentsThen next = next a o.environment := by
  rw [descentsThen, h]

theorem exists_of_mem_descentsThen {o : Outcome α} {next : α → Environment → List Descent}
    {d : Descent} (h : d ∈ o.descentsThen next) :
    ∃ a, o.result = .ok a ∧ d ∈ next a o.environment := by
  rw [descentsThen] at h
  split at h
  · cases h
  · rename_i a ho
    exact ⟨a, ho, h⟩

theorem flatMap_descentsThen (o : Outcome α) (next : α → Environment → List Descent)
    (f : Descent → List Visit) :
    (o.descentsThen next).flatMap f = o.visitsThen fun a env => (next a env).flatMap f := by
  cases h : o.result <;> simp only [descentsThen, visitsThen, h, List.flatMap_nil]

theorem numbered_descentsThen_sublist {o : Outcome α} {next : α → Environment → List Descent}
    {children : List (Expr × Nat)}
    (h : ∀ a env, ((next a env).map Descent.numbered).Sublist children) :
    ((o.descentsThen next).map Descent.numbered).Sublist children := by
  rw [descentsThen]
  split
  · exact List.nil_sublist _
  · exact h _ _

end Outcome

namespace Expr

def children : Expr → List Expr
  | .atom _ | .symbol _ => []
  | .sequence head args => head :: args
  | .definition _ value => [value]
  | .conditional condition thenBranch elseBranch => [condition, thenBranch, elseBranch]

theorem nodup_number_children (e : Expr) : (e.children.zipIdx.map Prod.snd).Nodup := by
  rw [List.zipIdx_map_snd]
  exact List.nodup_range'

section

variable [Host]

def argDescents (options : Options) (budget : Nat) (child : Nat) :
    List Expr → Environment → List Descent
  | [], _ => []
  | arg :: args, env =>
    ⟨child, arg, env⟩ ::
      ((arg.eval options budget env).asOperand options.policy .argument).descentsThen
        fun _ env => argDescents options budget (child + 1) args env

/-- The calls of a node on its children, which have the given budget. -/
def descents (options : Options) (budget : Nat) : Expr → Environment → List Descent
  | .atom _, _ | .symbol _, _ => []
  | .sequence head args, env =>
    ⟨0, head, env⟩ :: (head.eval options budget env).descentsThen fun callee env =>
      match callee.asBuiltin with
      | .error _ => []
      | .ok _ => argDescents options budget 1 args env
  | .definition _ value, env => [⟨0, value, env⟩]
  | .conditional condition thenBranch elseBranch, env =>
    ⟨0, condition, env⟩ ::
      ((condition.eval options budget env).asOperand options.policy .condition).descentsThen
        fun value env => if value.isTruthy then [⟨1, thenBranch, env⟩] else [⟨2, elseBranch, env⟩]

end

end Expr

/-- A call of the evaluator that the depth limit does not refuse: where the node stands, what
budget its children have, the node, and the environment in which it is evaluated. -/
structure Entry where
  path : List Nat
  budget : Nat
  expr : Expr
  environment : Environment

namespace Entry

def visit (c : Entry) : Visit :=
  ⟨c.path, c.expr.shape⟩

def outcome [Host] (options : Options) (c : Entry) : Outcome Value :=
  c.expr.eval options (c.budget + 1) c.environment

end Entry

namespace Expr

variable [Host]

/-- The nodes that an evaluation enters, in the order of the calls, where `path` leads to the
root. -/
def entries (options : Options) : Nat → List Nat → Expr → Environment → List Entry
  | 0, _, _, _ => []
  | budget + 1, path, e, env =>
    ⟨path, budget, e, env⟩ :: (e.descents options budget env).flatMap fun d =>
      entries options budget (d.child :: path) d.expr d.environment

variable {options : Options} {budget : Nat} {path : List Nat} {e : Expr} {env : Environment}

theorem mem_entries_succ {c : Entry} :
    c ∈ e.entries options (budget + 1) path env ↔
      c = ⟨path, budget, e, env⟩ ∨ ∃ d ∈ e.descents options budget env,
        c ∈ d.expr.entries options budget (d.child :: path) d.environment := by
  rw [entries, List.mem_cons, List.mem_flatMap]

theorem argVisitsWithin_eq_flatMap (path : List Nat) (child : Nat) (args : List Expr)
    (env : Environment) :
    argVisitsWithin options budget path child args env =
      (argDescents options budget child args env).flatMap fun d =>
        d.expr.visitsWithin options budget (d.child :: path) d.environment := by
  induction args generalizing child env with
  | nil => rfl
  | cons arg args ih =>
    rw [argVisitsWithin, argDescents, List.flatMap_cons, Outcome.flatMap_descentsThen,
      Evaluation.operand_apply]
    simp only [ih]

theorem visitsWithin_eq_flatMap (path : List Nat) (e : Expr) (env : Environment) :
    e.visitsWithin options (budget + 1) path env =
      ⟨path, e.shape⟩ :: (e.descents options budget env).flatMap fun d =>
        d.expr.visitsWithin options budget (d.child :: path) d.environment := by
  cases e with
  | atom value => rfl
  | symbol name => rfl
  | sequence head args =>
    rw [visitsWithin, descents, List.flatMap_cons, Outcome.flatMap_descentsThen, shape]
    congr 3
    funext callee env
    cases callee.asBuiltin with
    | error e => rfl
    | ok b => exact argVisitsWithin_eq_flatMap path 1 args env
  | definition name value =>
    rw [visitsWithin, descents, List.flatMap_singleton, shape]
  | conditional condition thenBranch elseBranch =>
    rw [visitsWithin, descents, List.flatMap_cons, Outcome.flatMap_descentsThen, shape,
      Evaluation.operand_apply]
    congr 3
    funext value env
    split <;> rw [List.flatMap_singleton]

theorem map_visit_entries (path : List Nat) (e : Expr) (env : Environment) :
    (e.entries options budget path env).map Entry.visit =
      e.visitsWithin options budget path env := by
  induction budget generalizing path e env with
  | zero => rw [visitsWithin_zero]; rfl
  | succ budget ih =>
    rw [entries, List.map_cons, List.map_flatMap, visitsWithin_eq_flatMap]
    simp only [ih]
    rfl

theorem entries_shown (path : List Nat) (e : Expr) (env : Environment) :
    (e.eval options budget env).Shows ((e.entries options budget path env).map Entry.visit) := by
  rw [map_visit_entries]
  exact e.eval_shows options path budget env

theorem log_infix_of_mem_argDescents {child : Nat} {args : List Expr} {d : Descent}
    (h : d ∈ argDescents options budget child args env) :
    (d.expr.eval options budget d.environment).log <:+:
      (evalArgs options budget args env).log := by
  induction args generalizing child env with
  | nil => cases h
  | cons arg args ih =>
    rw [evalArgs_cons]
    rcases List.mem_cons.mp h with rfl | h
    · have ho := Outcome.log_prefix_asOperand (arg.eval options budget env) options.policy .argument
      exact (ho.trans (Outcome.log_prefix_andThen _ _)).isInfix
    · obtain ⟨value, ho, h⟩ := Outcome.exists_of_mem_descentsThen h
      refine (ih h).trans (List.IsInfix.trans ?_ (Outcome.log_infix_andThen_of_ok ho _))
      rw [Evaluation.map_apply]
      exact (Outcome.log_prefix_andThen _ _).isInfix

theorem log_infix_of_mem_descents {d : Descent} (h : d ∈ e.descents options budget env) :
    (d.expr.eval options budget d.environment).log <:+:
      (e.eval options (budget + 1) env).log := by
  cases e with
  | atom value => cases h
  | symbol name => cases h
  | sequence head args =>
    rw [eval_sequence]
    refine List.IsInfix.trans ?_ (List.suffix_append _ _).isInfix
    rcases List.mem_cons.mp h with rfl | h
    · exact (Outcome.log_prefix_andThen _ _).isInfix
    · obtain ⟨callee, ho, h⟩ := Outcome.exists_of_mem_descentsThen h
      split at h
      · cases h
      · rename_i b hc
        refine List.IsInfix.trans ?_ (Outcome.log_infix_andThen_of_ok ho _)
        rw [Evaluation.callOn_of_ok hc]
        exact (log_infix_of_mem_argDescents h).trans (Outcome.log_prefix_andThen _ _).isInfix
  | definition name value =>
    cases List.mem_singleton.mp h
    rw [eval_definition]
    exact (Outcome.log_prefix_bound _ _ _).isInfix.trans (List.suffix_append _ _).isInfix
  | conditional condition thenBranch elseBranch =>
    rw [eval_conditional]
    refine List.IsInfix.trans ?_ (List.suffix_append _ _).isInfix
    rcases List.mem_cons.mp h with rfl | h
    · exact ((Outcome.log_prefix_asOperand _ _ _).trans (Outcome.log_prefix_andThen _ _)).isInfix
    · obtain ⟨value, ho, h⟩ := Outcome.exists_of_mem_descentsThen h
      refine List.IsInfix.trans ?_ (Outcome.log_infix_andThen_of_ok ho _)
      rw [Evaluation.choose]
      split at h <;> rename_i hv <;> cases List.mem_singleton.mp h
      · simp only [if_pos hv, List.infix_rfl]
      · simp only [if_neg hv, List.infix_rfl]

theorem log_infix_of_mem_entries {c : Entry} (h : c ∈ e.entries options budget path env) :
    (c.outcome options).log <:+: (e.eval options budget env).log := by
  induction budget generalizing path e env with
  | zero => cases h
  | succ budget ih =>
    rcases mem_entries_succ.mp h with rfl | ⟨d, hd, h⟩
    · exact List.infix_rfl
    · exact (ih h).trans (log_infix_of_mem_descents hd)

theorem path_suffix_of_mem_entries {c : Entry} (h : c ∈ e.entries options budget path env) :
    path <:+ c.path := by
  induction budget generalizing path e env with
  | zero => cases h
  | succ budget ih =>
    rcases mem_entries_succ.mp h with rfl | ⟨d, hd, h⟩
    · exact List.suffix_rfl
    · exact (List.suffix_cons _ _).trans (ih h)

theorem exists_parent {c : Entry} (h : c ∈ e.entries options budget path env) :
    c.path = path ∨ ∃ p ∈ e.entries options budget path env, ∃ child, c.path = child :: p.path := by
  induction budget generalizing path e env with
  | zero => cases h
  | succ budget ih =>
    rcases mem_entries_succ.mp h with rfl | ⟨d, hd, h⟩
    · exact .inl rfl
    · right
      rcases ih h with hp | ⟨p, hm, hp⟩
      · exact ⟨_, mem_entries_succ.mpr (.inl rfl), d.child, hp⟩
      · exact ⟨p, mem_entries_succ.mpr (.inr ⟨d, hd, hm⟩), hp⟩

theorem numbered_argDescents_sublist (options : Options) (budget child : Nat) (args : List Expr)
    (env : Environment) :
    ((argDescents options budget child args env).map Descent.numbered).Sublist
      (args.zipIdx child) := by
  induction args generalizing child env with
  | nil => exact List.Sublist.refl _
  | cons arg args ih =>
    rw [argDescents, List.map_cons, List.zipIdx_cons]
    exact (Outcome.numbered_descentsThen_sublist fun _ env => ih (child + 1) env).cons_cons _

/-- A node calls for its children at most once and in their order. -/
theorem numbered_descents_sublist (options : Options) (budget : Nat) (e : Expr)
    (env : Environment) :
    ((e.descents options budget env).map Descent.numbered).Sublist e.children.zipIdx := by
  cases e with
  | atom value => exact List.Sublist.refl _
  | symbol name => exact List.Sublist.refl _
  | sequence head args =>
    rw [descents, List.map_cons, children, List.zipIdx_cons]
    refine (Outcome.numbered_descentsThen_sublist fun callee env => ?_).cons_cons _
    split
    · exact List.nil_sublist _
    · exact numbered_argDescents_sublist options budget 1 args env
  | definition name value => exact List.Sublist.refl _
  | conditional condition thenBranch elseBranch =>
    rw [descents, List.map_cons, children, List.zipIdx_cons]
    refine (Outcome.numbered_descentsThen_sublist fun value env => ?_).cons_cons _
    split
    · exact ((List.nil_sublist _).cons _).cons_cons _
    · exact (List.Sublist.refl _).cons _

theorem eq_of_child_eq {d d' : Descent} (h : d ∈ e.descents options budget env)
    (h' : d' ∈ e.descents options budget env) (hc : d.child = d'.child) : d = d' := by
  have hn := (numbered_descents_sublist options budget e env).map Prod.snd
  rw [List.map_map] at hn
  have hn := hn.nodup (nodup_number_children e)
  exact List.inj_on_of_nodup_map hn h h' hc

end Expr

end LispCalc
